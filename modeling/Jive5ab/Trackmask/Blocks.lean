import Jive5ab.Trackmask.Lossless
import Jive5ab.Trackmask.SizesBothWays

/-! # What the generated code does to a block

The words it reads and writes, and the pointer that `compress` returns. Sign and
magnitude do not matter for the pointers; they do after the last step, when the
code looks at the word its destination pointer has moved on to. -/
namespace Jive5ab.Trackmask
open Lib.Bits Env Solution

variable {mask : Word} {s : Solution}

/-! ## Statements and the words they touch -/

def Env.index (e : Env) : Var → Option Int
  | .srcptr => some e.srcptr
  | .dstptr => some e.dstptr
  | _ => none

def Expr.ref : Expr → Option Ref
  | .value r => some r
  | .const _ => none
  | .masked r _ _ => some r
  | .magnitude r _ _ => some r

/-- The words that are read or written: those behind the pointers on the right, then on
the left. -/
def Env.accesses (e : Env) (st : Stmt) : List Int :=
  (st.rhs.ref.bind fun r => e.index r.var).toList ++ ((e.eval st.rhs).2.index st.lhs.var).toList

def Env.touched : Env → List Stmt → List Int
  | _, [] => []
  | e, st :: code => e.accesses st ++ (e.execOne st).touched code

/-- All statements of a generated function, the loop unrolled. -/
def Code.stmts (c : Code) : List Stmt := (List.replicate c.nloop c.body).flatten ++ c.tail

/-- The words that `compress` reads and writes in a block. -/
def Generated.compressTouched (g : Generated) (mem : Int → Word) (tmps : Word × Word) : List Int :=
  Env.touched ⟨mem, g.numwords - 1, 0, tmps.1, tmps.2⟩ g.compress.stmts

def Generated.decompressTouched (g : Generated) (mem : Int → Word) (tmps : Word × Word) : List Int :=
  Env.touched ⟨mem, 0, g.numwords - 1, tmps.1, tmps.2⟩ g.decompress.stmts

theorem touched_append (e : Env) (xs ys : List Stmt) :
    e.touched (xs ++ ys) = e.touched xs ++ (e.exec xs).touched ys := by
  induction xs generalizing e with
  | nil => rfl
  | cons st xs ih =>
    rw [List.cons_append, touched, touched, ih, List.append_assoc]
    rfl

/-- The other words stay as they are. -/
theorem exec_frame {e : Env} (code : List Stmt) {j : Int} (h : j ∉ e.touched code) :
    (e.exec code).mem j = e.mem j := by
  induction code generalizing e with
  | nil => rfl
  | cons st code ih =>
    rw [touched, List.mem_append, not_or] at h
    refine (ih h.2).trans ?_
    have heval : (e.eval st.rhs).2.mem = e.mem := by
      cases st.rhs <;> simp only [eval, act] <;> split <;> rfl
    have hlhs : j ∉ ((e.eval st.rhs).2.index st.lhs.var).toList := by
      rw [accesses, List.mem_append, not_or] at h
      exact h.1.2
    unfold execOne
    rw [← heval]
    cases hv : st.lhs.var <;> simp_all [put, act, index, Function.update_of_ne]

/-! ## Steps -/

/-- The sign bits in the places of the magnitude bits that were dropped. -/
def magnitude (mask : Word) (distance : Int) (x : Word) : Word :=
  if distance = 0 then x else x ||| (shiftBy x (-distance) &&& ~~~mask)

/-- A step of the decompression, whatever the distance: `C` is the source word, `A` the
destination word so far. -/
theorem decompressStep_spec {C A : Word} {e : Env} {fresh usetemp : Bool} {st : Step}
    {distance : Int} (hC : C = if fresh then e.mem e.srcptr else e.tmpsrc)
    (hA : A = if usetemp then e.tmpdst
      else if st.decSrc = true ∧ distance = 0 then e.mem e.dstptr else 0) :
    let e' := e.exec (decompressStep mask distance false fresh usetemp st)
    let A' := A ||| shiftBy (C &&& st.maskTo) (-st.shift)
    let mem := if st.decSrc then Function.update e.mem e.dstptr (magnitude mask distance A')
      else e.mem
    e'.mem = (if st.incDst then Function.update mem e.srcptr (magnitude mask distance (C &&& mask))
        else mem) ∧
      e'.srcptr = st.dst e.srcptr ∧ e'.dstptr = st.src e.dstptr ∧
      (st.incDst = false → e'.tmpsrc = C) ∧ (st.decSrc = false → e'.tmpdst = A') := by
  subst hC hA
  by_cases hdist : distance = 0 <;> cases fresh <;> cases usetemp <;> cases hd : st.decSrc <;>
    cases hi : st.incDst <;>
    simp [decompressStep, Step.decompressCode, restoreMagnitudeBit, restoreSource, magnitude, exec,
      execOne, eval, Env.get, put, act, Var.ref, Var.plain, Action.move, Step.dst, Step.src, hd, hi, hdist]

theorem decompressStep_touched {distance : Int} (e : Env) (fresh usetemp : Bool) (st : Step) :
    ∀ j ∈ e.touched (decompressStep mask distance false fresh usetemp st),
      j = e.srcptr ∨ j = e.dstptr := by
  by_cases hdist : distance = 0 <;> cases fresh <;> cases usetemp <;> cases hd : st.decSrc <;>
    cases hi : st.incDst <;>
    simp [decompressStep, Step.decompressCode, restoreMagnitudeBit, restoreSource, touched, accesses,
      index, Expr.ref, execOne, eval, Env.get, put, act, Var.ref, Var.plain, Action.move, hd, hi, hdist]

theorem compressStep_touched (e : Env) (fresh usetemp : Bool) (st : Step) :
    ∀ j ∈ e.touched (compressStep mask fresh usetemp st),
      j = e.dstptr ∨ usetemp = false ∧ j = e.srcptr := by
  cases fresh <;> cases usetemp <;> cases hd : st.decSrc <;> cases hi : st.incDst <;>
    simp [compressStep, Step.compressCode, touched, accesses, index, Expr.ref, execOne, eval, Env.get, put,
      act, Var.ref, Var.plain, Action.move, hd, hi]

/-! ## The pointer that `compress` returns -/

theorem begun_init {init : List Step} {l : Step} (rest : List Step) (hl : l.incDst ∨ l.decSrc) :
    begun (init ++ l :: rest) ((dones init).length + 1) = init.countP Step.incDst + 1 := by
  induction init with
  | nil =>
    rw [List.nil_append, begun]
    split
    · cases rest <;> rfl
    · rename_i hi
      rw [if_pos (hl.resolve_left hi)]
      cases rest <;> rfl
  | cons st init ih =>
    rw [List.cons_append, begun, List.countP_cons, length_dones_cons]
    cases hi : st.incDst with
    | true =>
      rw [Bool.true_or, if_pos rfl, if_pos rfl, Nat.add_comm 1, ih]
    | false =>
      rw [Bool.false_or, if_neg Bool.false_ne_true, if_neg Bool.false_ne_true]
      cases hd : st.decSrc with
      | true =>
        rw [if_pos rfl, if_pos rfl, Nat.add_comm 1, ih]
        omega
      | false =>
        rw [if_neg Bool.false_ne_true, if_neg Bool.false_ne_true, Nat.zero_add]
        exact ih

theorem countP_replicate_flatten (n : Nat) (ss : List Step) (p : Step → Bool) :
    (List.replicate n ss).flatten.countP p = n * ss.countP p := by
  induction n with
  | zero => simp
  | succ n ih =>
    rw [List.replicate_succ, List.flatten_cons, List.countP_append, ih, Nat.succ_mul, Nat.add_comm]

/-- The last destination word is the last of the compressed words. -/
theorem Splits.compressedWords {n : Nat} {init : List Step} {l : Step} (h : Solved mask s)
    (hsplit : Splits s n init l) : (s.compressedWords n : Int) = dstAfter 0 init + 1 := by
  have hall := hsplit.steps
  have hcount := countP_replicate_flatten (n / s.cycle) s.steps Step.incDst
  have hdst := h.nDstinc
  rw [countP_dones_fst] at hdst
  rw [allSteps] at hall
  rw [h.compressedWords_eq, dstAfter]
  cases hr : n % s.cycle with
  | zero =>
    rw [hr, remainingSteps, List.append_nil] at hall
    rcases hsplit.near with ⟨-, -, hlast⟩ | ⟨-, hi, -, -⟩
    · rw [hr, remainingSteps] at hlast
      cases hlast
    · have hinit := congrArg (List.countP Step.incDst) hall
      rw [hcount, List.countP_append, List.countP_singleton, if_pos hi, ← hdst] at hinit
      rw [hinit, begun]
      push_cast
      omega
  | succ r =>
    have hlt := Nat.mod_lt n h.cycle_pos
    have hlen := h.length_dones
    obtain ⟨init₀, l₀, rest, hss, hrem, hl, hdones⟩ := @remainingSteps_spec r s.steps (by omega)
    rw [hr, hrem, ← List.append_assoc] at hall
    have hinit := congrArg (List.countP Step.incDst) (List.append_inj_left' hall rfl)
    rw [List.countP_append, hcount, ← hdst] at hinit
    have hbegun := @begun_init init₀ l₀ rest hl
    rw [hdones, ← hss] at hbegun
    rw [hbegun, ← hinit]
    push_cast
    omega

/-- `compress` returns a pointer behind as many words as `outputsize` says. -/
theorem compress_returns_outputsize (mask : Word) (s : Solution) (h : Built mask s)
    (hcomplete : s.complete = true) (n : Nat) (hn : 0 < n) (h32 : n < 2 ^ 32) (distance : Int) :
    ∃ g m, generateCode s n false distance = some g ∧ s.outputsize n = some m ∧
      ∀ mem tmps, (g.runCompress mem tmps).2 = m := by
  have hs := h.solved hcomplete
  obtain ⟨init, l, hsplit⟩ := hs.splits hn
  obtain ⟨g, hg, hnumwords, hcompress, -⟩ := generateCode_steps hs hn hsplit distance
  have hsize := hs.compressedWords_le n
  refine ⟨g, s.compressedWords n, hg, ?_, fun mem tmps => ?_⟩
  · rw [hs.outputsize_eq, Nat.mod_eq_of_lt (by omega)]
  · have hmeet : dstAfter 0 init ≤ srcAfter (n - 1) init := by
      rcases hsplit.meet with ⟨heq, -⟩ | ⟨heq, -⟩ <;> omega
    obtain ⟨hptr, -⟩ := @compress_run mask n init l mem tmps hmeet
    rw [hsplit.compressedWords hs, Generated.runCompress, Code.run_eq, hcompress, hnumwords]
    exact hptr

/-- Seven words with a mask of 48 bits: a whole cycle, and three words more. -/
theorem compress_returns_outputsize_seven : ∃ g m,
    generateCode (solve 0x0000FFFFFFFFFFFF) 7 false 0 = some g ∧
      (solve 0x0000FFFFFFFFFFFF).outputsize 7 = some m ∧
      ∀ mem tmps, (g.runCompress mem tmps).2 = m :=
  have hcomplete : (solve 0x0000FFFFFFFFFFFF).complete = true := by decide +kernel
  compress_returns_outputsize 0x0000FFFFFFFFFFFF _ (solve_built hcomplete) hcomplete 7 (by decide)
    (by decide) 0

/-! ## The words that are touched -/

def InBlock (n : Nat) (xs : List Int) : Prop := ∀ j ∈ xs, 0 ≤ j ∧ j < n

theorem inBlock_append {n : Nat} {xs ys : List Int} :
    InBlock n (xs ++ ys) ↔ InBlock n xs ∧ InBlock n ys := List.forall_mem_append

theorem compressStep_pointers {e : Env} {p : Int} {usetemp : Bool} (fresh : Bool) (st : Step)
    (hp : e.srcptr = if usetemp then p - 1 else p) :
    (e.exec (compressStep mask fresh usetemp st)).dstptr = st.dst e.dstptr ∧
      (e.exec (compressStep mask fresh usetemp st)).srcptr =
        if st.keeps usetemp then st.src p - 1 else st.src p := by
  rw [compressStep_exec rfl rfl]
  refine ⟨rfl, ?_⟩
  show (if usetemp then e.srcptr else e.srcptr - 1) = _
  rw [hp, Step.keeps_eq, Step.src]
  cases usetemp <;> cases st.decSrc <;> simp

theorem compressStep_inBlock {n : Nat} {e : Env} {p : Int} {usetemp : Bool} (fresh : Bool)
    (st : Step) (hp : e.srcptr = if usetemp then p - 1 else p) (hd : 0 ≤ e.dstptr ∧ e.dstptr < n)
    (hpn : 0 ≤ p ∧ p < n) : InBlock n (e.touched (compressStep mask fresh usetemp st)) := by
  intro j hj
  rcases compressStep_touched e fresh usetemp st j hj with rfl | ⟨hu, rfl⟩
  · exact hd
  · rw [hp, hu, if_neg Bool.false_ne_true]
    exact hpn

theorem decompressStep_inBlock {n : Nat} {e : Env} (distance : Int) (fresh usetemp : Bool)
    (st : Step) (hs : 0 ≤ e.srcptr ∧ e.srcptr < n) (hd : 0 ≤ e.dstptr ∧ e.dstptr < n) :
    InBlock n (e.touched (decompressStep mask distance false fresh usetemp st)) := by
  intro j hj
  rcases decompressStep_touched e fresh usetemp st j hj with rfl | rfl
  · exact hs
  · exact hd

/-- The pointers are in the block as long as another step follows. -/
theorem compressBody_inBlock {n : Nat} {e : Env} {p : Int} {fresh usetemp : Bool} (ss : List Step)
    (l : Step) (hp : e.srcptr = if usetemp then p - 1 else p) (hd : 0 ≤ e.dstptr) (hpn : p < n)
    (hdn : dstAfter e.dstptr ss < n) (hp0 : 0 ≤ srcAfter p ss) :
    InBlock n (e.touched (compressBody mask fresh usetemp (ss ++ [l]))) ∧
      (e.exec (compressBody mask fresh usetemp (ss ++ [l]))).dstptr =
        dstAfter e.dstptr (ss ++ [l]) := by
  induction ss generalizing e p fresh usetemp with
  | nil =>
    have hcode : compressBody mask fresh usetemp [l] = compressStep mask fresh usetemp l :=
      List.append_nil _
    have hdst := le_dstAfter e.dstptr []
    have hsrc := srcAfter_le p []
    rw [List.nil_append, hcode, dstAfter_cons]
    refine ⟨compressStep_inBlock fresh l hp (by omega) (by omega), ?_⟩
    rw [(compressStep_pointers fresh l hp).1]
    simp [dstAfter]
  | cons st ss ih =>
    obtain ⟨hdst', hsrc'⟩ := @compressStep_pointers mask e p usetemp fresh st hp
    have hle := st.le_dst e.dstptr
    have hge := st.src_le p
    have hdst := le_dstAfter (st.dst e.dstptr) ss
    have hsrc := srcAfter_le (st.src p) ss
    rw [dstAfter_cons] at hdn
    rw [srcAfter_cons] at hp0
    have hfirst : InBlock n (e.touched (compressStep mask fresh usetemp st)) :=
      compressStep_inBlock fresh st hp ⟨hd, by omega⟩ ⟨by omega, hpn⟩
    rw [← hdst'] at hdn
    obtain ⟨hrest, hend⟩ := @ih _ (st.src p) st.incDst (st.keeps usetemp) hsrc' (by omega) (by omega)
      hdn hp0
    rw [List.cons_append, compressBody_cons, touched_append, exec_append, inBlock_append,
      dstAfter_cons, ← hdst']
    exact ⟨⟨hfirst, hrest⟩, hend⟩

theorem decompressBody_inBlock {n : Nat} {e : Env} {distance : Int} {fresh usetemp : Bool}
    (ss : List Step) (l : Step) (hd : 0 ≤ e.srcptr) (hpn : e.dstptr < n)
    (hdn : dstAfter e.srcptr ss < n) (hp0 : 0 ≤ srcAfter e.dstptr ss) :
    let e' := e.exec (decompressBody mask distance false fresh usetemp (ss ++ [l]))
    InBlock n (e.touched (decompressBody mask distance false fresh usetemp (ss ++ [l]))) ∧
      e'.srcptr = dstAfter e.srcptr (ss ++ [l]) ∧ e'.dstptr = srcAfter e.dstptr (ss ++ [l]) := by
  induction ss generalizing e fresh usetemp with
  | nil =>
    obtain ⟨-, hsrc', hdst', -, -⟩ := @decompressStep_spec mask _ _ e fresh usetemp l distance rfl rfl
    have hcode : decompressBody mask distance false fresh usetemp [l] =
        decompressStep mask distance false fresh usetemp l := List.append_nil _
    have hdst := le_dstAfter e.srcptr []
    have hsrc := srcAfter_le e.dstptr []
    dsimp only
    rw [List.nil_append, hcode, dstAfter_cons, srcAfter_cons, hsrc', hdst']
    exact ⟨decompressStep_inBlock distance fresh usetemp l (by omega) (by omega),
      by simp [dstAfter], by simp [srcAfter]⟩
  | cons st ss ih =>
    obtain ⟨-, hsrc', hdst', -, -⟩ := @decompressStep_spec mask _ _ e fresh usetemp st distance rfl rfl
    have hle := st.le_dst e.srcptr
    have hge := st.src_le e.dstptr
    have hdst := le_dstAfter (st.dst e.srcptr) ss
    have hsrc := srcAfter_le (st.src e.dstptr) ss
    rw [dstAfter_cons] at hdn
    rw [srcAfter_cons] at hp0
    have hfirst : InBlock n (e.touched (decompressStep mask distance false fresh usetemp st)) :=
      decompressStep_inBlock distance fresh usetemp st ⟨hd, by omega⟩ ⟨by omega, hpn⟩
    rw [← hsrc'] at hdn
    rw [← hdst'] at hp0
    obtain ⟨hrest, hend⟩ := @ih _ st.incDst (st.keeps usetemp) (by omega) (by omega) hdn hp0
    dsimp only
    rw [List.cons_append, decompressBody_cons, touched_append, exec_append, inBlock_append,
      dstAfter_cons, srcAfter_cons, ← hsrc', ← hdst']
    exact ⟨⟨hfirst, hrest⟩, hend⟩

theorem compressLeft_touched (e : Env) (l : Step) :
    e.touched (compressLeft (some l)) = if l.incDst then [] else [e.dstptr] := by
  cases hi : l.incDst <;>
    simp [compressLeft, touched, accesses, index, Expr.ref, eval, act, Var.ref, Var.plain, hi]

/-- After the last step the code may still look at the word before the one it was in. -/
theorem decompressLeft_touched (distance : Int) (e : Env) (l : Step) (j : Int) :
    j ∈ e.touched (decompressLeft mask distance (some l)) ↔
      j = e.dstptr ∧ (l.decSrc = true → distance ≠ 0) ∨ j = e.srcptr ∧ l.incDst = false := by
  by_cases hdist : distance = 0 <;> cases hi : l.incDst <;> cases hd : l.decSrc <;>
    simp [decompressLeft, restoreMagnitudeBit, restoreSource, touched, accesses, index, Expr.ref,
      execOne, eval, Env.get, put, act, Var.ref, Var.plain, Action.move, hi, hd, hdist]

/-- The code after the last step stays in the block, unless it looks for magnitude bits before
the first word. -/
theorem decompressLeft_inBlock_iff {n : Nat} {e : Env} {distance : Int} {init : List Step} {l : Step}
    (hsrc : e.srcptr = dstAfter 0 (init ++ [l])) (hdst : e.dstptr = srcAfter (n - 1) (init ++ [l]))
    (hmeet : dstAfter 0 init = srcAfter (n - 1) init) :
    InBlock n (e.touched (decompressLeft mask distance (some l))) ↔
      distance = 0 ∨ (init ++ [l]).countP Step.decSrc < n := by
  unfold InBlock
  unfold dstAfter at hsrc hmeet
  unfold srcAfter at hdst hmeet
  rw [List.countP_append, List.countP_singleton] at hsrc hdst ⊢
  cases hd : l.decSrc with
  | true =>
    rw [hd, if_pos rfl] at hdst
    by_cases hdist : distance = 0
    · refine iff_of_true (fun j hj => ?_) (.inl hdist)
      rcases (decompressLeft_touched distance e l j).mp hj with ⟨-, hne⟩ | ⟨rfl, hi⟩
      · exact absurd hdist (hne hd)
      · rw [hi, if_neg Bool.false_ne_true] at hsrc
        omega
    · rw [or_iff_right hdist, if_pos rfl]
      constructor
      · intro hall
        have hlast := hall e.dstptr ((decompressLeft_touched distance e l _).mpr
          (.inl ⟨rfl, fun _ => hdist⟩))
        omega
      · intro hlt j hj
        rcases (decompressLeft_touched distance e l j).mp hj with ⟨rfl, -⟩ | ⟨rfl, hi⟩
        · omega
        · rw [hi, if_neg Bool.false_ne_true] at hsrc
          omega
  | false =>
    rw [hd, if_neg Bool.false_ne_true] at hdst
    rw [if_neg Bool.false_ne_true]
    refine iff_of_true (fun j hj => ?_) (.inr (by omega))
    rcases (decompressLeft_touched distance e l j).mp hj with ⟨rfl, -⟩ | ⟨rfl, hi⟩
    · omega
    · rw [hi, if_neg Bool.false_ne_true] at hsrc
      omega

theorem decompressLeft_srcptr (distance : Int) (e : Env) (l : Step) :
    (e.exec (decompressLeft mask distance (some l))).srcptr =
      e.srcptr + if l.incDst then 0 else 1 := by
  by_cases hdist : distance = 0 <;> cases hi : l.incDst <;> cases hd : l.decSrc <;>
    simp [decompressLeft, restoreMagnitudeBit, restoreSource, exec, execOne, eval, put, act, Var.ref,
      Var.plain, Action.move, hi, hd, hdist]

/-- The source words that the steps empty are as many as there are words only if no compressed
word is full before the last step. -/
theorem Splits.countP_decSrc_lt {n : Nat} {init : List Step} {l : Step} (hsplit : Splits s n init l)
    (hnil : remainingSteps false (n % s.cycle) s.steps = []) :
    (init ++ [l]).countP Step.decSrc < n := by
  rcases hsplit.near with ⟨-, -, hlast⟩ | ⟨hn, -, -, -⟩
  · rw [hnil] at hlast
    cases hlast
  · rw [changes] at hn
    rw [List.countP_append, List.countP_singleton]
    split <;> omega

/-- What `decompress` touches, and the pointer that it returns. -/
theorem Splits.decompress_inBlock {n : Nat} {init : List Step} {l : Step} (hs : Solved mask s)
    (hsplit : Splits s n init l) (distance : Int) (mem : Int → Word) (tmps : Word × Word) :
    let code := decompressBody mask distance false true false (init ++ [l]) ++
      decompressLeft mask distance (remainingSteps false (n % s.cycle) s.steps).getLast?
    let e : Env := ⟨mem, 0, n - 1, tmps.1, tmps.2⟩
    (InBlock n (e.touched code) ↔
        distance = 0 ∨ (s.allSteps n).countP Step.decSrc < n) ∧
      (e.exec code).srcptr = s.compressedWords n := by
  have hdst := le_dstAfter 0 init
  have hsrc := srcAfter_le (n - 1) init
  have hmeet : dstAfter 0 init ≤ srcAfter (n - 1) init := by
    rcases hsplit.meet with ⟨heq, -⟩ | ⟨heq, -⟩ <;> omega
  obtain ⟨hbody, hsrc', hdst'⟩ := @decompressBody_inBlock mask n
    ⟨mem, 0, n - 1, tmps.1, tmps.2⟩ distance true false init l (Int.le_refl 0) (by dsimp only; omega)
    (by dsimp only; omega) (by dsimp only; omega)
  have hend : dstAfter 0 (init ++ [l]) = dstAfter 0 init + if l.incDst then 1 else 0 := by
    rw [dstAfter, dstAfter, List.countP_append, List.countP_singleton]
    split <;> simp
  dsimp only
  rw [touched_append, inBlock_append, exec_append, hsplit.steps, hsplit.compressedWords hs]
  rcases hsplit.near with ⟨hcount, -, hlast⟩ | ⟨-, hinc, -, hnil⟩
  · rw [hlast, decompressLeft_inBlock_iff hsrc' hdst' (by rw [srcAfter_eq]; omega),
      decompressLeft_srcptr, hsrc', hend]
    refine ⟨and_iff_right hbody, ?_⟩
    split <;> simp
  · refine ⟨iff_of_true ⟨hbody, ?_⟩ (.inr (hsplit.countP_decSrc_lt hnil)), ?_⟩
    · rw [hnil]
      exact List.forall_mem_nil _
    · rw [hnil]
      refine hsrc'.trans ?_
      rw [hend, if_pos hinc]

/-- `decompress` returns a pointer behind the compressed words, and leaves the words outside the
block as they are. -/
theorem Solved.decompress_frame (hs : Solved mask s) {n : Nat} (hn : 0 < n) (distance : Int) :
    ∃ g, generateCode s n false distance = some g ∧ g.numwords = n ∧ ∀ mem tmps,
      (g.decompress.run ⟨mem, 0, n - 1, tmps.1, tmps.2⟩).srcptr = s.compressedWords n ∧
        (distance = 0 ∨ (s.allSteps n).countP Step.decSrc < n →
          ∀ j : Int, j < 0 ∨ n ≤ j → g.runDecompress mem tmps j = mem j) := by
  obtain ⟨init, l, hsplit⟩ := hs.splits hn
  obtain ⟨g, hg, hnumwords, -, hdecompress⟩ := generateCode_steps hs hn hsplit distance
  refine ⟨g, hg, hnumwords, fun mem tmps => ?_⟩
  obtain ⟨hblock, hptr⟩ := hsplit.decompress_inBlock hs distance mem tmps
  rw [Generated.runDecompress, Code.run_eq, Code.run_eq, hdecompress, hnumwords]
  refine ⟨hptr, fun hcond j hj => exec_frame _ fun hmem => ?_⟩
  have hin := hblock.mpr hcond j hmem
  omega

/-- The generated functions stay in the block exactly when no magnitude bits are restored, or
the steps empty fewer words than the block has. -/
theorem generated_inBlock_iff (mask : Word) (s : Solution) (h : Built mask s)
    (hcomplete : s.complete = true) (n : Nat) (hn : 0 < n) (distance : Int) :
    ∃ g, generateCode s n false distance = some g ∧
      ((∀ mem tmps, InBlock n (g.compressTouched mem tmps) ∧
        InBlock n (g.decompressTouched mem tmps)) ↔
        distance = 0 ∨ (s.allSteps n).countP Step.decSrc < n) := by
  have hs := h.solved hcomplete
  obtain ⟨init, l, hsplit⟩ := hs.splits hn
  obtain ⟨g, hg, hnumwords, hcompress, hdecompress⟩ := generateCode_steps hs hn hsplit distance
  have hdst := le_dstAfter 0 init
  have hsrc := srcAfter_le (n - 1) init
  have hmeet : dstAfter 0 init ≤ srcAfter (n - 1) init := by
    rcases hsplit.meet with ⟨heq, -⟩ | ⟨heq, -⟩ <;> omega
  refine ⟨g, hg, ?_⟩
  have hpacks : ∀ mem tmps, InBlock n (g.compressTouched mem tmps) := by
    intro mem tmps
    obtain ⟨hbody, hend⟩ := @compressBody_inBlock mask n
      ⟨mem, n - 1, 0, tmps.1, tmps.2⟩ (n - 1) true false init l rfl (Int.le_refl 0) (by omega)
      (by dsimp only; omega) (by omega)
    rw [Generated.compressTouched, Code.stmts, hcompress, hnumwords, touched_append, inBlock_append,
      compressLeft_touched, hend]
    refine ⟨hbody, ?_⟩
    cases hi : l.incDst with
    | true => exact List.forall_mem_nil _
    | false =>
      intro j hj
      obtain rfl := List.mem_singleton.mp hj
      have hsame : dstAfter 0 (init ++ [l]) = dstAfter 0 init := by
        rw [dstAfter, dstAfter, List.countP_append, List.countP_singleton, hi]
        simp
      dsimp only
      omega
  have hunpacks : ∀ mem tmps, InBlock n (g.decompressTouched mem tmps) ↔
      distance = 0 ∨ (s.allSteps n).countP Step.decSrc < n := by
    intro mem tmps
    rw [Generated.decompressTouched, Code.stmts, hdecompress, hnumwords]
    exact (hsplit.decompress_inBlock hs distance mem tmps).1
  constructor
  · intro hall
    exact (hunpacks (fun _ => 0) (0, 0)).mp (hall (fun _ => 0) (0, 0)).2
  · intro hcond mem tmps
    exact ⟨hpacks mem tmps, (hunpacks mem tmps).mpr hcond⟩

theorem generated_inBlock_three : ∃ g, generateCode (solve 0xFFFFFFFF) 3 false 1 = some g ∧
    ((∀ mem tmps, InBlock 3 (g.compressTouched mem tmps) ∧
      InBlock 3 (g.decompressTouched mem tmps)) ↔
      (1 : Int) = 0 ∨ ((solve 0xFFFFFFFF).allSteps 3).countP Step.decSrc < 3) :=
  have hcomplete : (solve 0xFFFFFFFF).complete = true := by decide +kernel
  generated_inBlock_iff 0xFFFFFFFF _ (solve_built hcomplete) hcomplete 3 (by decide) 1

/-- With a mask of half the bits, two words are packed into one: `decompress` for a single
word restores magnitude bits before the block. -/
theorem single_word_outOfBlock : (solve 0xFFFFFFFF).complete = true ∧
    ∃ g, generateCode (solve 0xFFFFFFFF) 1 false 1 = some g ∧
      ¬ InBlock 1 (g.decompressTouched (fun _ => 0) (0, 0)) := by
  have hcomplete : (solve 0xFFFFFFFF).complete = true := by decide +kernel
  refine ⟨hcomplete, ?_⟩
  have hsome : (generateCode (solve 0xFFFFFFFF) 1 false 1).isSome := by decide +kernel
  obtain ⟨g, hg⟩ := Option.isSome_iff_exists.mp hsome
  refine ⟨g, hg, fun h => ?_⟩
  have hbefore : ((generateCode (solve 0xFFFFFFFF) 1 false 1).map fun g =>
      g.decompressTouched (fun _ => 0) (0, 0)) = some [0, 0, 0, -1, -1] := by decide +kernel
  rw [hg] at hbefore
  have htouched : g.decompressTouched (fun _ => 0) (0, 0) = [0, 0, 0, -1, -1] :=
    Option.some.inj hbefore
  rw [htouched] at h
  exact absurd (h (-1) (by decide)) (by decide)

end Jive5ab.Trackmask
