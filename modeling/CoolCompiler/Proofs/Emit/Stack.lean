import CoolCompiler.Proofs.Emit.Labels

/-!
# Stack discipline

Every line of the code of an expression has a stack depth: the same on all ways to it, never below
that at the beginning, and that at the end.  The receiver, the frame pointer and the stack pointer
are not written, except by pushing, popping and calling.
-/

namespace CoolCompiler

open List Instr

namespace Register

def isKept : Register → Bool
  | .ix | .iy | .sp => true
  | _ => false

end Register

def Operand.writes : Operand → List Register
  | .reg r => [r]
  | _ => []

/-- The registers that an instruction puts a value into.  Moves of the stack pointer by pushes,
pops, calls and returns are not counted. -/
def Instr.writes : Instr → List Register
  | .ld dst _ => dst.writes
  | .pop r | .inc r | .dec r => [r]
  | .add dst _ | .sbc dst _ => [dst]
  | .or _ | .xor _ => [.a]
  | .exDeHl => [.de, .hl]
  | .push _ | .scf | .call _ | .jp _ _ | .ret => []
  | .other _ _ => Register.known

def Instr.isMild (i : Instr) : Bool := i.writes.all fun r => !r.isKept

def Line.isMild : Line → Bool
  | .label _ => true
  | .instr i => i.isMild
  | _ => false

namespace Emit

/-- The depths at a line and at the lines after it.  A word is on the stack after a push and before
a pop.  A return ends a call, which comes back to its label with the depth at which it began.
`lands` says where labels are gone to. -/
def Flows (lands : Name → Nat → Prop) (ls : List Line) (depth : Nat → Nat) (i : Nat) :
    Line → Prop
  | .instr (.push _) => depth (i + 1) = depth i + 1
  | .instr (.pop _) => depth i = depth (i + 1) + 1
  | .instr (.jp flag x) => (flag ≠ .always → depth (i + 1) = depth i) ∧ lands x (depth i)
  | .instr .ret => ∃ first target k, i = first + 3 ∧ target ≠ .bc ∧
      (ls.drop first).take 4 = code (callPair target (localLabel k)) ∧
      lands (localLabel k) (depth first)
  | _ => depth (i + 1) = depth i

def Lands (ls : List Line) (depth : Nat → Nat) (x : Name) (d : Nat) : Prop :=
  (∀ k, x = localLabel k → Line.label x ∈ ls) ∧
    ∀ j : Nat, ls[j]? = some (Line.label x) → depth j = d

/-- Depths that begin and end with nothing on the stack and agree along every way through the code,
which writes no register that is kept. -/
structure Disciplined (ls : List Line) (depth : Nat → Nat) : Prop where
  entry : depth 0 = 0
  exit : depth ls.length = 0
  flow : ∀ (i : Nat) l, ls[i]? = some l → Flows (Lands ls depth) ls depth i l
  mild : ∀ l ∈ ls, l.isMild = true

/-!
# Following code

Code is followed from one depth to another when local labels have given depths.  After an
unconditional jump or a return any depth begins.
-/

def after? (d : Nat) (i : Instr) : Option Nat :=
  if i.isMild then
    match i, d with
    | .push _, d => some (d + 1)
    | .pop _, d + 1 => some d
    | .pop _, 0 => none
    | .jp _ _, _ => none
    | .ret, _ => none
    | _, d => some d
  else none

def straight (d : Nat) : List Instr → Option Nat
  | [] => some d
  | i :: is => (after? d i).bind fun d' => straight d' is

inductive Follows (at' : Nat → Nat) : Nat → List Line → Nat → Prop where
  | nil (d : Nat) : Follows at' d [] d
  | label {d d' k : Nat} {ls : List Line} : at' k = d → Follows at' d ls d' →
      Follows at' d (.label (localLabel k) :: ls) d'
  | step {d d1 d' : Nat} {i : Instr} {ls : List Line} : after? d i = some d1 →
      Follows at' d1 ls d' → Follows at' d (.instr i :: ls) d'
  | branch {d d' : Nat} {flag : Flag} {x : Name} {ls : List Line} :
      (∀ k, x = localLabel k → at' k = d) → Follows at' d ls d' →
      Follows at' d (.instr (.jp flag x) :: ls) d'
  | jump {d d1 d' : Nat} {x : Name} {ls : List Line} :
      (∀ k, x = localLabel k → at' k = d) → Follows at' d1 ls d' →
      Follows at' d (.instr (.jp .always x) :: ls) d'
  | call {d d1 d' k : Nat} {target : Pair} {ls : List Line} : target ≠ .bc → at' k = d →
      Follows at' d1 ls d' → Follows at' d (code (callPair target (localLabel k)) ++ ls) d'

namespace Follows

variable {at' : Nat → Nat} {d d1 d' : Nat} {ls ms : List Line}

theorem append (h : Follows at' d ls d1) (h' : Follows at' d1 ms d') :
    Follows at' d (ls ++ ms) d' := by
  induction h with
  | nil => exact h'
  | label hk _ ih => exact .label hk (ih h')
  | step hi _ ih => exact .step hi (ih h')
  | branch hx _ ih => exact .branch hx (ih h')
  | jump hx _ ih => exact .jump hx (ih h')
  | call htarget hk _ ih =>
    rw [append_assoc]
    exact .call htarget hk (ih h')

theorem straight (is : List Instr) (h : Emit.straight d is = some d') :
    Follows at' d (code is) d' := by
  induction is generalizing d with
  | nil =>
    cases h
    exact .nil _
  | cons i is ih =>
    obtain ⟨d1, hi, his⟩ := Option.bind_eq_some_iff.mp h
    exact .step hi (ih his)

theorem branchTo {flag : Flag} {k : Nat} (hk : at' k = d) (h : Follows at' d ls d') :
    Follows at' d (.instr (.jp flag (localLabel k)) :: ls) d' :=
  .branch (fun k' heq => by rw [← localLabel_injective heq, hk]) h

theorem jumpTo {k : Nat} (hk : at' k = d) (h : Follows at' d1 ls d') :
    Follows at' d (.instr (.jp .always (localLabel k)) :: ls) d' :=
  .jump (fun k' heq => by rw [← localLabel_injective heq, hk]) h

theorem leave {x : Name} (hx : x ∈ libraryLabels) (h : Follows at' d1 ls d') :
    Follows at' d (.instr (.jp .always x) :: ls) d' :=
  .jump (fun k heq => absurd heq (ne_localLabel_of_library hx k)) h

theorem isMild_of_after? {i : Instr} (h : after? d i = some d') : i.isMild = true := by
  unfold after? at h
  split at h
  · assumption
  · cases h

theorem mild (h : Follows at' d ls d') : ∀ l ∈ ls, l.isMild = true := by
  induction h with
  | nil => simp
  | label _ _ ih => exact forall_mem_cons.mpr ⟨rfl, ih⟩
  | step hi _ ih => exact forall_mem_cons.mpr ⟨isMild_of_after? hi, ih⟩
  | branch _ _ ih => exact forall_mem_cons.mpr ⟨rfl, ih⟩
  | jump _ _ ih => exact forall_mem_cons.mpr ⟨rfl, ih⟩
  | @call d d1 d' k target ls _ _ _ ih =>
    refine forall_mem_append.mpr ⟨?_, ih⟩
    simp [code, callPair, Line.isMild, isMild, writes, loadLabel, loadAddress,
      Operand.writes, Pair.whole, Register.isKept]

end Follows

/-!
# Depths of lines

Following code gives each of its lines a depth.
-/

variable {ls : List Line} {lands : Name → Nat → Prop} {at' depth : Nat → Nat} {d d' : Nat}

theorem Flows.shift {depth' : Nat → Nat} {ms : List Line} {i : Nat} {l : Line}
    (h : Flows lands ls depth i l) (hshift : ∀ j, depth' (ms.length + j) = depth j) :
    Flows lands (ms ++ ls) depth' (ms.length + i) l := by
  have hhere := hshift i
  have hnext : depth' (ms.length + i + 1) = depth (i + 1) := hshift (i + 1)
  cases l with
  | instr i =>
    cases i with
    | ret =>
      obtain ⟨first, target, k, rfl, htarget, hcall, hback⟩ := h
      refine ⟨ms.length + first, target, k, rfl, htarget, ?_, ?_⟩
      · rwa [drop_append, drop_eq_nil_of_le (by omega), nil_append,
          Nat.add_sub_cancel_left]
      · rwa [hshift]
    | jp flag x => exact ⟨fun hflag => by rw [hnext, hhere, h.1 hflag], by rw [hhere]; exact h.2⟩
    | push r | pop r => simpa only [Flows, hhere, hnext] using h
    | _ => simpa only [Flows, hhere, hnext] using h
  | _ => simpa only [Flows, hhere, hnext] using h

structure Depths (at' : Nat → Nat) (d : Nat) (ls : List Line) (d' : Nat) (depth : Nat → Nat) :
    Prop where
  entry : depth 0 = d
  exit : depth ls.length = d'
  flow : ∀ (i : Nat) l, ls[i]? = some l →
    Flows (fun x d => ∀ k, x = localLabel k → at' k = d) ls depth i l
  label : ∀ (i k : Nat), ls[i]? = some (Line.label (localLabel k)) → at' k = depth i

theorem flows_of_after? {n : Nat} {i : Instr} (h : after? d i = some d') (hhere : depth n = d)
    (hnext : depth (n + 1) = d') : Flows lands ls depth n (.instr i) := by
  unfold after? at h
  split at h
  · subst hhere hnext
    cases i with
    | push r => exact (Option.some.inj h).symm
    | pop r =>
      cases hdepth : depth n with
      | zero =>
        rw [hdepth] at h
        cases h
      | succ m =>
        rw [hdepth] at h
        rw [Flows, hdepth, Option.some.inj h]
    | jp flag x => cases h
    | ret => cases h
    | _ => exact (Option.some.inj h).symm
  · cases h

def extend (n : Nat) (before depth : Nat → Nat) (i : Nat) : Nat :=
  if i < n then before i else depth (i - n)

theorem extend_add (n : Nat) (before depth : Nat → Nat) (i : Nat) :
    extend n before depth (n + i) = depth i := by
  rw [extend, if_neg (by omega), Nat.add_sub_cancel_left]

namespace Depths

variable {at' depth : Nat → Nat} {d d1 d' : Nat} {ls : List Line}

theorem prepend (h : Depths at' d1 ls d' depth) (ms : List Line) (before : Nat → Nat)
    (hne : ms ≠ []) (hentry : before 0 = d)
    (hflow : ∀ (i : Nat) l, ms[i]? = some l → Flows (fun x d => ∀ k, x = localLabel k → at' k = d)
      (ms ++ ls) (extend ms.length before depth) i l)
    (hlabel : ∀ (i k : Nat), ms[i]? = some (Line.label (localLabel k)) → at' k = before i) :
    Depths at' d (ms ++ ls) d' (extend ms.length before depth) where
  entry := by
    rw [extend, if_pos (length_pos_iff.mpr hne), hentry]
  exit := by
    rw [length_append, extend_add, h.exit]
  flow i l hi := by
    by_cases hlt : i < ms.length
    · rw [getElem?_append_left hlt] at hi
      exact hflow i l hi
    · rw [getElem?_append_right (by omega)] at hi
      have hshift := (h.flow _ l hi).shift (extend_add ms.length before depth)
      rwa [Nat.add_sub_of_le (by omega)] at hshift
  label i k hi := by
    by_cases hlt : i < ms.length
    · rw [getElem?_append_left hlt] at hi
      rw [extend, if_pos hlt, hlabel i k hi]
    · rw [getElem?_append_right (by omega)] at hi
      rw [extend, if_neg hlt, h.label _ k hi]

theorem cons {l : Line} (h : Depths at' d1 ls d' depth)
    (hflow : Flows (fun x d => ∀ k, x = localLabel k → at' k = d) (l :: ls)
      (extend 1 (fun _ => d) depth) 0 l)
    (hlabel : ∀ k, l = .label (localLabel k) → at' k = d) :
    Depths at' d (l :: ls) d' (extend 1 (fun _ => d) depth) := by
  apply h.prepend [l] (fun _ => d) (cons_ne_nil l []) rfl
  · intro i l' hi
    rw [getElem?_singleton] at hi
    split at hi
    · rename_i hzero
      cases hi
      rw [hzero]
      exact hflow
    · cases hi
  · intro i k hi
    rw [getElem?_singleton] at hi
    split at hi
    · cases hi
      exact hlabel k rfl
    · cases hi

end Depths

theorem Follows.exists_depth (h : Follows at' d ls d') : ∃ depth, Depths at' d ls d' depth := by
  induction h with
  | nil d => exact ⟨fun _ => d, rfl, rfl, by simp, by simp⟩
  | label hk _ ih =>
    obtain ⟨depth, hdepth⟩ := ih
    refine ⟨_, hdepth.cons hdepth.entry fun k' heq => ?_⟩
    rw [← localLabel_injective (Line.label.inj heq), hk]
  | step hi _ ih =>
    obtain ⟨depth, hdepth⟩ := ih
    refine ⟨_, hdepth.cons (flows_of_after? hi rfl hdepth.entry) fun k heq => ?_⟩
    cases heq
  | branch hx _ ih =>
    obtain ⟨depth, hdepth⟩ := ih
    refine ⟨_, hdepth.cons ⟨fun _ => hdepth.entry, hx⟩ fun k heq => ?_⟩
    cases heq
  | jump hx _ ih =>
    obtain ⟨depth, hdepth⟩ := ih
    refine ⟨_, hdepth.cons ⟨fun h => absurd rfl h, hx⟩ fun k heq => ?_⟩
    cases heq
  | @call d d1 d' k target ls htarget hk _ ih =>
    obtain ⟨depth, hdepth⟩ := ih
    -- the return address and the routine are on the stack before the return
    refine ⟨_, hdepth.prepend (code (callPair target (localLabel k)))
      (fun i => if i ≤ 1 then d else if i = 2 then d + 1 else d + 2) (by simp [callPair, code])
      rfl ?_ ?_⟩
    · intro i l hi
      rcases i with _ | _ | _ | _ | i
      · cases hi
        rfl
      · cases hi
        rfl
      · cases hi
        rfl
      · cases hi
        refine ⟨0, target, k, rfl, htarget, rfl, fun k' heq => ?_⟩
        rw [← localLabel_injective heq]
        exact hk
      · cases hi
    · intro i k' hi
      obtain ⟨_, _, heq⟩ := mem_map.mp (mem_of_getElem? hi)
      cases heq

/-!
# Rules

Depths of local labels are chosen piece by piece: those of a piece are the ones with its
numbers.
-/

def Agrees (k k' : Nat) (at' given : Nat → Nat) : Prop := ∀ i, k ≤ i → i < k' → at' i = given i

def glue (m : Nat) (f g : Nat → Nat) (i : Nat) : Nat := if i < m then f i else g i

namespace Agrees

variable {k k' m : Nat} {at' f g : Nat → Nat}

theorem left (h : Agrees k k' at' (glue m f g)) (hm : m ≤ k') : Agrees k m at' f := by
  intro i hi hi'
  rw [h i hi (by omega), glue, if_pos hi']

theorem right (h : Agrees k k' at' (glue m f g)) (hm : k ≤ m) : Agrees m k' at' g := by
  intro i hi hi'
  rw [h i (by omega) hi', glue, if_neg (by omega)]

end Agrees

/-- Code from so many words above any depth to so many, with depths for its local labels that hang
on that depth. -/
def Settles (m n k : Nat) (ls : List Line) (k' : Nat) : Prop :=
  k ≤ k' ∧ ∀ d, ∃ given, ∀ at', Agrees k k' at' given → Follows at' (d + m) ls (d + n)

namespace Settles

variable {m n p k k1 k2 k3 k4 : Nat} {ls ms ns : List Line}

theorem code {is : List Instr} (h : ∀ d, straight (d + m) is = some (d + n)) :
    Settles m n k (Emit.code is) k :=
  ⟨Nat.le_refl k, fun d => ⟨fun _ => d, fun _ _ => .straight is (h d)⟩⟩

theorem nil : Settles n n k [] k :=
  ⟨Nat.le_refl k, fun d => ⟨fun _ => d, fun _ _ => .nil _⟩⟩

theorem append (h : Settles m n k1 ls k2) (h' : Settles n p k2 ms k3) :
    Settles m p k1 (ls ++ ms) k3 := by
  refine ⟨Nat.le_trans h.1 h'.1, fun d => ?_⟩
  obtain ⟨given, hls⟩ := h.2 d
  obtain ⟨given', hms⟩ := h'.2 d
  refine ⟨glue k2 given given', fun at' hat => ?_⟩
  exact (hls at' (hat.left h'.1)).append (hms at' (hat.right h.1))

theorem above (h : Settles m n k1 ls k2) (p : Nat) : Settles (m + p) (n + p) k1 ls k2 := by
  refine ⟨h.1, fun d => ?_⟩
  obtain ⟨given, hls⟩ := h.2 (d + p)
  refine ⟨given, fun at' hat => ?_⟩
  have hfollows := hls at' hat
  rwa [show d + p + m = d + (m + p) by omega, show d + p + n = d + (n + p) by omega] at hfollows

theorem atop (h : Settles 0 0 k1 ls k2) (p : Nat) : Settles p p k1 ls k2 := by
  have habove := h.above p
  rwa [Nat.zero_add] at habove

theorem level (hle : k ≤ k') (h : ∀ at' d, (∀ i, k ≤ i → i < k' → at' i = d + m) →
    Follows at' (d + m) ls (d + n)) : Settles m n k ls k' :=
  ⟨hle, fun d => ⟨fun _ => d + m, fun at' hat => h at' d hat⟩⟩

theorem selectBool (flag : Flag) : Settles 0 0 k (selectBool flag (localLabel k)) (k + 1) := by
  apply level (by omega)
  intro at' d hat
  have hk := hat k (by omega) (by omega)
  exact .step rfl (.branchTo hk (.step rfl (.label hk (.nil _))))

theorem equality (type : Name) :
    Settles 0 0 k (Emit.code (testSame (localLabel k) ++ testEqual type (localLabel k)) ++
      equalityResult (localLabel k) (localLabel (k + 1))) (k + 2) := by
  apply level (by omega)
  intro at' d hat
  have htrue := hat k (by omega) (by omega)
  have hdone := hat (k + 1) (by omega) (by omega)
  have hresult : Follows at' d (equalityResult (localLabel k) (localLabel (k + 1))) d :=
    .step rfl (.jumpTo hdone (.label htrue (.step rfl (.label hdone (.nil _)))))
  have hsame : Follows at' d (Emit.code (testSame (localLabel k))) d :=
    .step rfl (.step rfl (.step rfl (.branchTo htrue (.nil _))))
  have hvalue : Follows at' d (Emit.code (testEqual type (localLabel k))) d := by
    unfold testEqual
    split
    · exact (Follows.straight (unboxOperands ++ [clearCarry, .sbc .hl .bc]) rfl).append
        (.branchTo htrue (.nil _))
    · split
      · exact .step rfl (.branchTo htrue (.nil _))
      · exact .nil _
  rw [Emit.code, map_append]
  exact (hsame.append hvalue).append hresult

theorem newSelfType : Settles 0 0 k (newSelfType (localLabel k)) (k + 1) := by
  apply level (by omega)
  intro at' d hat
  have hback := hat k (by omega) (by omega)
  rw [Emit.newSelfType, Emit.code, map_append, append_assoc]
  exact (Follows.straight _ rfl).append (.call (by decide) hback (.label hback (.nil _)))

theorem dropActuals : Settles n 0 k (Emit.code (dropActuals n)) k := by
  apply code
  intro d
  induction n with
  | zero => rfl
  | succ n ih => exact ih

theorem follows_afterCall {at' : Nat → Nat} {d : Nat} (line : Int) (file : Address)
    (hvoid : at' k = d + n) (hback : at' (k + 1) = d + n) :
    Follows at' (d + n) (dispatchAbort (localLabel k) line file ++
      (.label (localLabel (k + 1)) :: Emit.code (Emit.dropActuals n))) (d + 0) := by
  obtain ⟨given, hdrop⟩ := (dropActuals (n := n) (k := k)).2 d
  have hlast := hdrop at' fun i hi hi' => absurd hi' (by omega)
  exact .label hvoid (.step rfl (.step rfl (.leave (by decide) (.label hback hlast))))

/-- A test for void, a call and what follows it, if the call comes back on the level at which it
is made. -/
theorem call (is : List Instr) (line : Int) (file : Address)
    (h : ∀ {at' d ls}, at' (k + 1) = d + n → Follows at' (d + n) ls (d + 0) →
      Follows at' (d + n) (Emit.code is ++ ls) (d + 0)) :
    Settles n 0 k (Emit.code (testZero .hl ++ .jp .zero (localLabel k) :: is) ++
      (dispatchAbort (localLabel k) line file ++
      (.label (localLabel (k + 1)) :: Emit.code (Emit.dropActuals n)))) (k + 2) := by
  apply level (by omega)
  intro at' d hat
  have hvoid := hat k (by omega) (by omega)
  have hback := hat (k + 1) (by omega) (by omega)
  have htest : Follows at' (d + n) (Emit.code (testZero .hl)) (d + n) := .straight _ rfl
  exact htest.append (.branchTo hvoid (h hback (follows_afterCall line file hvoid hback)))

end Settles

/-!
# Branches
-/

def SettlesBranches (j n f k : Nat) (ls : List Line) (k' : Nat) : Prop :=
  k ≤ k' ∧ ∀ d, ∃ given, ∀ at', Agrees k k' at' given →
    (∀ i, j ≤ i → i < j + n → at' i = d + 1) → at' f = d → ∃ d1, Follows at' d1 ls d

theorem follows_testBranches {tags : List Nat} {j : Nat}
    (h : ∀ i, j ≤ i → i < j + tags.length → at' i = d) :
    Follows at' d (code ((tags.zip ((List.range' j tags.length).map localLabel)).flatMap
      fun b => testBranch b.1 b.2)) d := by
  induction tags generalizing j with
  | nil => exact .nil d
  | cons tag tags ih =>
    rw [length_cons] at h
    rw [length_cons, range'_succ, map_cons, zip_cons_cons,
      flatMap_cons, code, map_append]
    have htest : Follows at' d (code (testBranch tag (localLabel j))) d :=
      .step rfl (.step rfl (.step rfl (.step rfl (.step rfl
        (.branchTo (h j (by omega) (by omega)) (.nil _))))))
    exact htest.append (ih fun i hi hi' => h i (by omega) (by omega))

theorem follows_caseWalk {k : Nat} {tags : List Nat} (line : Int) (file : Address)
    (hvoid : at' k = d) (hloop : at' (k + 1) = d + 1) (hno : at' (k + 2) = d + 1)
    (hbranches : ∀ i, k + 4 ≤ i → i < k + 4 + tags.length → at' i = d + 1) :
    Follows at' d (caseWalk (localLabel k) (localLabel (k + 1)) (localLabel (k + 2))
      (tags.zip ((List.range' (k + 4) tags.length).map localLabel)) line file) d' := by
  have hstart : Follows at' d (code (testZero .hl ++ [.jp .zero (localLabel k)])) d :=
    .step rfl (.step rfl (.branchTo hvoid (.nil _)))
  have hrow : Follows at' d (code ([.push .hl] ++ loadIndirect .de ++
    [.exDeHl, .add .hl .hl, .add .hl .hl, loadLabel .de inheritanceTree, .add .hl .de])) (d + 1) :=
    .straight _ rfl
  have htag : Follows at' (d + 1) (code (loadIndirect .bc ++ [.dec .hl])) (d + 1) :=
    .straight _ rfl
  have hup : Follows at' (d + 1) (code ([.inc .hl, .inc .hl] ++ loadIndirect .de ++
    [.dec .hl, .dec .hl, .dec .hl] ++ testZero .de)) (d + 1) := .straight _ rfl
  have htests := follows_testBranches hbranches
  have hend : Follows at' (d + 1) (code [.jp .zero (localLabel (k + 2)), .add .hl .de,
      .jp .always (localLabel (k + 1))] ++ ([.label (localLabel (k + 2))] ++
      (code [.pop .hl, .jp .always "_case_abort"] ++ ([.label (localLabel k)] ++
      code [loadInt .de line, loadAddress .hl file, .jp .always "_case_abort2"])))) d' :=
    .branchTo hno (.step rfl (.jumpTo hloop (.label hno (.step rfl (.leave (by decide)
      (.label hvoid (.step rfl (.step rfl (.leave (by decide) (.nil _))))))))))
  have hwhole := hstart.append (hrow.append (.label hloop (htag.append
    (htests.append (hup.append hend)))))
  simpa only [caseWalk, code, map_append, append_assoc, map_cons, map_nil,
    cons_append, nil_append] using hwhole

theorem settlesRules (sc : Scene) :
    CodeRules sc (Settles 0 0) (fun n => Settles 0 n) SettlesBranches where
  nil _ := .nil
  append := .append
  int _ _ _ _ := .code fun _ => rfl
  string _ _ _ _ := .code fun _ => rfl
  bool _ _ := .code fun _ => rfl
  void _ := .code fun _ => rfl
  self _ := .code fun _ => rfl
  fetch _ _ := .code fun _ => rfl
  store _ _ := .code fun _ => rfl
  noActuals _ := .nil
  actual h h' := by
    have hrest := h'.above 1
    rw [Nat.zero_add] at hrest
    exact h.append (.append (.code fun _ => rfl) hrest)
  dispatch line h h' _ _ := h.append ((h'.atop _).append (.call _ line _ fun hback hafter =>
    (Follows.straight ([.push .hl, loadInt .de dispatchOffset, .add .hl .de] ++ loadIndirect .de ++
      [loadInt .hl _, .add .hl .de] ++ loadIndirect .de ++ [.pop .hl]) rfl).append
      (.call (by decide) hback hafter)))
  static line h h' _ _ := h.append ((h'.atop _).append (.call _ line _ fun hback hafter =>
    .step rfl (.jumpTo hback hafter)))
  arithmetic {op _ _ k _ _ _} hop _ h h' := by
    have hcompute : Settles 1 0 k (code (unboxOperands ++ arithmetic op ++ boxResult)) k := by
      rcases hop with rfl | rfl | rfl | rfl <;> exact .code fun _ => rfl
    exact .append (.code fun _ => rfl) ((h.atop 1).append (.append (.code fun _ => rfl)
      ((h'.atop 2).append (.append (.code fun _ => rfl) hcompute))))
  comparison {_ _ k _ _} orEqual h h' := by
    have hcompare : Settles 0 0 k (code (unboxOperands ++ compareSigned orEqual)) k := by
      cases orEqual <;> exact .code fun _ => rfl
    exact h.append (.append (.code fun _ => rfl) ((h'.atop 1).append (.append (.code fun _ => rfl)
      (hcompare.append (.selectBool .carry)))))
  equality type h h' := h.append (.append (.code fun _ => rfl) ((h'.atop 1).append
    (.append (.code fun _ => rfl) (.equality type))))
  negate _ h := .append (.code fun _ => rfl) ((h.atop 1).append (.code fun _ => rfl))
  complement h := h.append (.append (.code fun _ => rfl) (.selectBool .zero))
  isVoid h := h.append (.append (.code fun _ => rfl) (.selectBool .zero))
  new _ _ _ _ := .code fun _ => rfl
  newSelfType _ := .newSelfType
  cond {k1 k2 k3 _ _ _ _} h1 h2 h3 := by
    have hle1 := h1.1
    have hle2 := h2.1
    have hle3 := h3.1
    refine ⟨by omega, fun d => ?_⟩
    obtain ⟨given1, hls⟩ := h1.2 d
    obtain ⟨given2, hms⟩ := h2.2 d
    obtain ⟨given3, hns⟩ := h3.2 d
    refine ⟨glue (k1 + 2) (fun _ => d) (glue k2 given1 (glue k3 given2 given3)), fun at' hat => ?_⟩
    have hrest := hat.right (by omega)
    have hrest' := hrest.right (by omega)
    have hout : at' k1 = d := hat.left (by omega) k1 (by omega) (by omega)
    have hend : at' (k1 + 1) = d := hat.left (by omega) (k1 + 1) (by omega) (by omega)
    have htest : Follows at' d (code (testBool ++ [.jp .zero (localLabel k1)])) d :=
      (Follows.straight testBool rfl).append (.branchTo hout (.nil _))
    exact (hls at' (hrest.left (by omega))).append (htest.append
      ((hms at' (hrest'.left (by omega))).append (.jumpTo hend (.label hout
      ((hns at' (hrest'.right (by omega))).append (.label hend (.nil _)))))))
  loop {k1 k2 _ _ _} h1 h2 := by
    have hle1 := h1.1
    have hle2 := h2.1
    refine ⟨by omega, fun d => ?_⟩
    obtain ⟨given1, hls⟩ := h1.2 d
    obtain ⟨given2, hms⟩ := h2.2 d
    refine ⟨glue (k1 + 2) (fun _ => d) (glue k2 given1 given2), fun at' hat => ?_⟩
    have hrest := hat.right (by omega)
    have hstart : at' k1 = d := hat.left (by omega) k1 (by omega) (by omega)
    have hend : at' (k1 + 1) = d := hat.left (by omega) (k1 + 1) (by omega) (by omega)
    have htest : Follows at' d (code (testBool ++ [.jp .zero (localLabel (k1 + 1))])) d :=
      (Follows.straight testBool rfl).append (.branchTo hend (.nil _))
    exact .label hstart ((hls at' (hrest.left (by omega))).append (htest.append
      ((hms at' (hrest.right (by omega))).append (.jumpTo hstart
      (.label hend (.step rfl (.nil _)))))))
  noBranches _ _ k := ⟨Nat.le_refl k, fun d => ⟨fun _ => d, fun _ _ _ _ => ⟨d, .nil d⟩⟩⟩
  branch {j _ _ _ k2 _ _ _} x h h' := by
    have hle := h.1
    have hle' := h'.1
    refine ⟨by omega, fun d => ?_⟩
    obtain ⟨given, hls⟩ := h.2 d
    obtain ⟨given', hms⟩ := h'.2 d
    refine ⟨glue k2 given given', fun at' hat hbranches hfinished => ⟨d + 1, ?_⟩⟩
    rcases hms at' (hat.right hle) (fun i hi hi' => hbranches i (by omega) (by omega)) hfinished
      with ⟨d1, hrest⟩
    have hbody := hls at' (hat.left hle')
    have hj := hbranches j (by omega) (by omega)
    exact .label hj (.step rfl (.step rfl (.step rfl (hbody.append (.jumpTo hfinished hrest)))))
  typeCase {_ k _ _ _ _ _ tags} line h _ h' := by
    have hle := h'.1
    refine h.append ⟨by omega, fun d => ?_⟩
    obtain ⟨given, hms⟩ := h'.2 d
    -- a branch is reached with the object on the stack, and so is the climb
    refine ⟨glue (k + 4 + tags.length) (fun i => if i = k ∨ i = k + 3 then d else d + 1) given,
      fun at' hat => ?_⟩
    have hown := hat.left hle
    have hvoid : at' k = d := (hown k (by omega) (by omega)).trans (if_pos (.inl rfl))
    have hfinished : at' (k + 3) = d :=
      (hown (k + 3) (by omega) (by omega)).trans (if_pos (.inr rfl))
    have hothers : ∀ i, k < i → i ≠ k + 3 → i < k + 4 + tags.length → at' i = d + 1 := by
      intro i hi hne hi'
      exact (hown i (by omega) hi').trans (if_neg (by omega))
    have hbranches : ∀ i, k + 4 ≤ i → i < k + 4 + tags.length → at' i = d + 1 :=
      fun i hi hi' => hothers i (by omega) (by omega) hi'
    obtain ⟨d1, hbodies⟩ := hms at' (hat.right (by omega)) hbranches hfinished
    have hloop := hothers (k + 1) (by omega) (by omega) (by omega)
    have hno := hothers (k + 2) (by omega) (by omega) (by omega)
    exact (follows_caseWalk line _ hvoid hloop hno hbranches).append
      (hbodies.append (.label hfinished (.nil _)))

/-!
# Expressions
-/

theorem Flows.mono {lands' : Name → Nat → Prop} {i : Nat} {l : Line} (h : Flows lands ls depth i l)
    (hl : l ∈ ls) (hlands : ∀ x ∈ labelRefs ls, ∀ d, lands x d → lands' x d) :
    Flows lands' ls depth i l := by
  cases l with
  | instr i =>
    cases i with
    | ret =>
      obtain ⟨first, target, k, hi, htarget, hcall, hback⟩ := h
      refine ⟨first, target, k, hi, htarget, hcall, hlands _ ?_ _ hback⟩
      have hload : Line.instr (loadLabel .bc (localLabel k)) ∈ ls := by
        apply mem_of_mem_drop (i := first)
        apply mem_of_mem_take (i := 4)
        rw [hcall]
        exact mem_cons_self
      exact mem_flatMap.mpr ⟨_, hload, mem_singleton_self _⟩
    | jp flag x =>
      exact ⟨h.1, hlands x (mem_flatMap.mpr ⟨_, hl, mem_singleton_self x⟩) _ h.2⟩
    | _ => exact h
  | _ => exact h

theorem Depths.disciplined (h : Depths at' 0 ls 0 depth) (hmild : ∀ l ∈ ls, l.isMild = true)
    (hrefs : ∀ k, localLabel k ∈ labelRefs ls → Line.label (localLabel k) ∈ ls)
    (hdefs : ∀ x, Line.label x ∈ ls → ∃ k, x = localLabel k) : Disciplined ls depth where
  entry := h.entry
  exit := h.exit
  mild := hmild
  flow i l hi := by
    apply (h.flow i l hi).mono (mem_of_getElem? hi)
    intro x hx d hlands
    constructor
    · intro k hk
      rw [hk] at hx ⊢
      exact hrefs k hx
    · intro j hj
      obtain ⟨k, rfl⟩ := hdefs x (mem_of_getElem? hj)
      rw [← h.label j k hj, hlands k rfl]

/-- The stack is balanced on every way through the code of an expression, and the receiver,
the frame pointer and the stack pointer are left alone. -/
theorem expr_disciplined (sc : Scene) (e : Expr) (s : Session)
    (h : (expr sc e s).outcome = .ok ()) : ∃ depth, Disciplined (expr sc e s).lines depth := by
  have hyields : Yields (expr sc e) s (expr sc e s).lines () (expr sc e s).state := ⟨rfl, rfl, h⟩
  have hnumbered := (numberedRules sc).ofExpr e hyields
  rcases ((settlesRules sc).ofExpr e hyields).2 0 with ⟨given, hfollows⟩
  have hcode := hfollows given fun i _ _ => rfl
  rcases hcode.exists_depth with ⟨depth, hdepth⟩
  exact ⟨depth, hdepth.disciplined hcode.mild (fun _ => hnumbered.label_mem)
    fun _ => hnumbered.label_local⟩

def copyLoop : Expr :=
  .loop ⟨"while", 1, Name.object⟩ (.isVoid ⟨"isvoid", 1, Name.bool⟩
      (.object ⟨"self", 1, []⟩ Name.self))
    (.typeCase ⟨"case", 2, Name.object⟩ (.object ⟨"self", 2, []⟩ Name.self)
      [⟨3, "o", Name.object, .dispatch ⟨"o", 3, Name.object⟩ (.object ⟨"o", 3, Name.object⟩ "o")
        none "copy" [.object ⟨"o", 3, Name.object⟩ "o"]⟩])

def copyPool : Pool := (Pool.empty.internString Class.builtinFile).2

theorem expr_disciplined_copyLoop : ∃ t n, ClassTable.build [] = .ok t ∧
    (expr ⟨t, copyPool⟩ copyLoop ⟨0, Environment.fresh n⟩).outcome = .ok () ∧
    ∃ depth, Disciplined (expr ⟨t, copyPool⟩ copyLoop ⟨0, Environment.fresh n⟩).lines depth := by
  have hcheck : (passes (ClassTable.build []) fun t => t.nodes.any fun n =>
      passes (expr ⟨t, copyPool⟩ copyLoop ⟨0, Environment.fresh n⟩).outcome
        fun _ => true) = true := by
    decide +kernel
  simp only [passes_iff, any_eq_true] at hcheck
  rcases hcheck with ⟨t, hbuild, n, _, u, houtcome, _⟩
  exact ⟨t, n, hbuild, houtcome, expr_disciplined _ _ _ houtcome⟩

end Emit
end CoolCompiler
