import Jive5ab.Interchain.QueueReader
import Jive5ab.Queue.Fifo

/-! # Re-blocking between chains

The reader against what the writers pushed in one enabled period. Every whole block
comes out, in order, exactly if the count of bytes at hand never wraps, the queue is
not disabled with more of them in it, and no push downstream fails. -/
namespace Jive5ab.Interchain

open Lib Queue

variable (c : Setup)

/-- Each block, with what is left of those before it, is counted in 32 bits. -/
def Fits (done : List Block) : Prop :=
  ∀ pre b post, done = pre ++ b :: post → pre.flatten.length % c.outBlocksize + b.length < 2 ^ 32

theorem fits_nil : Fits c [] := by
  intro pre b post h
  simp at h

theorem fits_concat {done : List Block} {b : Block} : Fits c (done ++ [b]) ↔
    Fits c done ∧ done.flatten.length % c.outBlocksize + b.length < 2 ^ 32 := by
  constructor
  · intro h
    refine ⟨fun pre b' post heq => h pre b' (post ++ [b]) ?_, h done b [] rfl⟩
    rw [heq, List.append_assoc, List.cons_append]
  · rintro ⟨hdone, hb⟩ pre b' post heq
    rcases List.eq_nil_or_concat post with rfl | ⟨post', last, rfl⟩
    · obtain ⟨rfl, hlast⟩ := List.append_inj' heq rfl
      obtain rfl : b = b' := List.singleton_inj.mp hlast
      exact hb
    · rw [List.concat_eq_append, ← List.cons_append, ← List.append_assoc] at heq
      exact hdone pre b' post' (List.append_inj' heq rfl).1

theorem length_emitted {emitted : List Block} (h : ∀ b ∈ emitted, b.length = c.outBlocksize) :
    emitted.flatten.length = emitted.length * c.outBlocksize := by
  induction emitted with
  | nil => simp
  | cons b bs ih =>
    obtain ⟨hb, hbs⟩ := List.forall_mem_cons.mp h
    rw [List.flatten_cons, List.length_append, hb, ih hbs, List.length_cons, Nat.succ_mul,
      Nat.add_comm]

variable {c}

/-- After the blocks of `done`; `k` says how often the count has wrapped. -/
structure Running (c : Setup) (done : List Block) (k : Nat) (r : Reader) : Prop where
  running : r.stop = false
  sizes : ∀ b ∈ r.emitted, b.length = c.outBlocksize
  accepted : ∀ n < r.emitted.length, c.accepts n = true
  word : r.nAvail < 2 ^ 32
  listed : r.blocklist.flatten.length ≡ r.nAvail [MOD 2 ^ 32]
  counted : r.emitted.length * c.outBlocksize + r.nAvail + 2 ^ 32 * k = done.flatten.length
  fits : k = 0 ↔ Fits c done
  content : k = 0 → r.emitted.flatten ++ r.blocklist.flatten = done.flatten

/-- A push downstream has failed, of a block there was. -/
structure Stopped (c : Setup) (done : List Block) (r : Reader) : Prop where
  stopped : r.stop = true
  sizes : ∀ b ∈ r.emitted, b.length = c.outBlocksize
  refused : c.accepts r.emitted.length = false
  more : r.emitted.length * c.outBlocksize + c.outBlocksize ≤ done.flatten.length

theorem Running.restart : Running c [] 0 Reader.restart where
  running := rfl
  sizes := List.forall_mem_nil _
  accepted _ h := absurd h (Nat.not_lt_zero _)
  word := Nat.two_pow_pos 32
  listed := rfl
  counted := by simp [Reader.restart]
  fits := iff_of_true rfl (fits_nil c)
  content _ := rfl

variable {done : List Block} {k : Nat} {r : Reader}

theorem Running.enough (h : Running c done k r) : r.nAvail ≤ r.blocklist.flatten.length := by
  have hmod := h.listed
  rw [Nat.ModEq, Nat.mod_eq_of_lt h.word] at hmod
  rw [← hmod]
  exact Nat.mod_le _ _

theorem Running.listed_eq (h : Running c done k r) (hk : k = 0) :
    r.blocklist.flatten.length = r.nAvail := by
  have hlen := congrArg List.length (h.content hk)
  have hcounted := h.counted
  rw [List.length_append, length_emitted c h.sizes] at hlen
  omega

theorem Running.emit (h : Running c done k r) {outblock : Block} {rest : List Block}
    (hmore : c.outBlocksize ≤ r.nAvail) (hlen : outblock.length = c.outBlocksize)
    (hcut : CutOff r.blocklist outblock rest) (hacc : c.accepts r.emitted.length = true) :
    Running c done k ⟨r.nAvail - c.outBlocksize, rest, r.emitted ++ [outblock], r.stop⟩ where
  running := h.running
  sizes := by
    intro b hb
    rcases List.mem_append.mp hb with hb | hb
    · exact h.sizes b hb
    · rw [List.mem_singleton.mp hb, hlen]
  accepted n hn := by
    rw [List.length_append, List.length_singleton] at hn
    rcases Nat.lt_succ_iff_lt_or_eq.mp hn with hlt | rfl
    · exact h.accepted n hlt
    · exact hacc
  word := (Nat.sub_le _ _).trans_lt h.word
  listed := by
    refine Nat.ModEq.add_right_cancel' c.outBlocksize ?_
    rw [Nat.sub_add_cancel hmore, ← hlen]
    exact hcut.length.trans h.listed
  counted := by
    have := h.counted
    dsimp only
    rw [List.length_append, List.length_singleton, Nat.add_mul]
    omega
  fits := h.fits
  content hk := by
    have hshort : r.blocklist.flatten.length < 2 ^ 32 := (h.listed_eq hk).trans_lt h.word
    rw [List.flatten_append, List.flatten_singleton, List.append_assoc, hcut.content hshort,
      h.content hk]

/-- The loop ends with less than a block at hand, or stopped. -/
theorem drain_spec {fuel : Nat} (hfuel : r.nAvail ≤ fuel) (h : Running c done k r) :
    ∃ r', c.drain fuel r = some r' ∧
      ((Running c done k r' ∧ r'.nAvail < c.outBlocksize) ∨ Stopped c done r') := by
  have hpos := c.pos
  induction fuel generalizing r with
  | zero => exact ⟨r, rfl, .inl ⟨h, by omega⟩⟩
  | succ fuel ih =>
    by_cases hfew : r.nAvail < c.outBlocksize
    · exact ⟨r, by rw [Setup.drain, if_pos hfew], .inl ⟨h, hfew⟩⟩
    have hmore : c.outBlocksize ≤ r.nAvail := Nat.not_lt.mp hfew
    obtain ⟨outblock, rest, heq, hlen, hcut⟩ := cut_spec c (hmore.trans h.enough)
    rw [Setup.drain, if_neg hfew, heq]
    by_cases hacc : c.accepts r.emitted.length = true
    · simp only [Option.bind_eq_bind, Option.bind_some, if_pos hacc]
      exact ih (by dsimp only; omega) (h.emit hmore hlen hcut hacc)
    · simp only [Option.bind_eq_bind, Option.bind_some, if_neg hacc]
      have hcounted := h.counted
      exact ⟨_, rfl, .inr ⟨rfl, h.sizes, Bool.not_eq_true _ ▸ hacc, by dsimp only; omega⟩⟩

theorem Running.append (h : Running c done k r) (hfew : r.nAvail < c.outBlocksize) (tmp : Block) :
    ∃ k', Running c (done ++ [tmp]) k' (Setup.append r tmp) := by
  have hword := h.word
  have hcounted := h.counted
  have hlen : (done ++ [tmp]).flatten.length = done.flatten.length + tmp.length := by
    rw [List.flatten_append, List.flatten_singleton, List.length_append]
  have hdiv := Nat.div_add_mod (r.nAvail + tmp.length) (2 ^ 32)
  have hfits : k + (r.nAvail + tmp.length) / 2 ^ 32 = 0 ↔ Fits c (done ++ [tmp]) := by
    rw [Nat.add_eq_zero_iff, h.fits, fits_concat, Nat.div_eq_zero_iff_lt (Nat.two_pow_pos 32)]
    refine and_congr_right fun hk => ?_
    have hleft : done.flatten.length % c.outBlocksize = r.nAvail := by
      rw [← hcounted, h.fits.mpr hk, Nat.mul_zero, Nat.add_zero, Nat.add_comm, Nat.add_mul_mod_self_right,
        Nat.mod_eq_of_lt hfew]
    rw [hleft]
  refine ⟨k + (r.nAvail + tmp.length) / 2 ^ 32, ?_⟩
  by_cases hempty : tmp.length = 0
  · have hsame : Setup.append r tmp = r := by rw [Setup.append, if_neg (not_not.mpr hempty)]
    have hzero : (r.nAvail + tmp.length) / 2 ^ 32 = 0 :=
      Nat.div_eq_of_lt (by rwa [hempty, Nat.add_zero])
    have hnil : (done ++ [tmp]).flatten = done.flatten := by
      rw [List.flatten_append, List.flatten_singleton, List.eq_nil_of_length_eq_zero hempty,
        List.append_nil]
    rw [hzero, Nat.add_zero] at hfits ⊢
    rw [hsame]
    exact ⟨h.running, h.sizes, h.accepted, h.word, h.listed, hnil ▸ hcounted, hfits, hnil ▸ h.content⟩
  · have hnext : Setup.append r tmp =
        ⟨(r.nAvail + tmp.length) % 2 ^ 32, r.blocklist ++ [tmp], r.emitted, r.stop⟩ := by
      rw [Setup.append, if_pos hempty]
    rw [hnext]
    refine ⟨h.running, h.sizes, h.accepted, Nat.mod_lt _ (Nat.two_pow_pos 32), ?_, ?_, hfits,
      fun hk => ?_⟩
    · rw [List.flatten_append, List.flatten_singleton, List.length_append]
      exact (h.listed.add_right _).trans (Nat.mod_modEq _ _).symm
    · dsimp only
      rw [hlen, Nat.mul_add]
      omega
    · have hzero : k = 0 := (Nat.add_eq_zero_iff.mp hk).1
      dsimp only
      rw [List.flatten_append, List.flatten_append, ← List.append_assoc, h.content hzero]

theorem Stopped.append (h : Stopped c done r) (pops : List Block) : Stopped c (done ++ pops) r where
  stopped := h.stopped
  sizes := h.sizes
  refused := h.refused
  more := by
    rw [List.flatten_append, List.length_append]
    exact h.more.trans (Nat.le_add_right _ _)

/-- The reader never looks past its list, and no slice of it fails. -/
theorem queueReader_spec {pops : List Block} (h : Running c done k r) :
    ∃ r', c.queueReader pops r = some r' ∧
      ((∃ k', Running c (done ++ pops) k' r' ∧ r'.nAvail < c.outBlocksize) ∨
        Stopped c (done ++ pops) r') := by
  induction pops generalizing done k r with
  | nil =>
    obtain ⟨r', heq, hend⟩ := drain_spec (le_refl _) h
    rw [List.append_nil]
    exact ⟨r', heq, hend.imp_left fun hrun => ⟨k, hrun⟩⟩
  | cons tmp pops ih =>
    obtain ⟨r', heq, ⟨hrun, hfew⟩ | hstop⟩ := drain_spec (le_refl _) h
    · obtain ⟨k', hnext⟩ := hrun.append hfew tmp
      obtain ⟨r'', heq', hend⟩ := ih hnext
      refine ⟨r'', ?_, by rwa [List.append_assoc] at hend⟩
      simp only [Setup.queueReader, heq, Option.bind_eq_bind, Option.bind_some, hrun.running,
        Bool.false_eq_true, if_false, heq']
    · refine ⟨r', ?_, .inr (hstop.append _)⟩
      simp only [Setup.queueReader, heq, Option.bind_eq_bind, Option.bind_some, hstop.stopped, if_true]

/-! ## One enabled period -/

/-- Whole blocks only, a prefix of what was pushed, and less than a block missing. -/
structure Reblocks (out : Nat) (pushed emitted : List Block) : Prop where
  sizes : ∀ b ∈ emitted, b.length = out
  inOrder : emitted.flatten <+: pushed.flatten
  complete : pushed.flatten.length < emitted.flatten.length + out

/-- What it takes, of the blocks that were pushed and of those popped before the end. -/
structure Smooth (c : Setup) (pushed popped : List Block) : Prop where
  fits : Fits c popped
  taken : popped.flatten.length / c.outBlocksize = pushed.flatten.length / c.outBlocksize
  accepted : ∀ n < pushed.flatten.length / c.outBlocksize, c.accepts n = true

/-- `n` blocks out of so many bytes, and less than one more. -/
theorem blocks_eq {T n : Nat} (hle : n * c.outBlocksize ≤ T)
    (hlt : T < n * c.outBlocksize + c.outBlocksize) : T / c.outBlocksize = n :=
  Nat.div_eq_of_lt_le hle (by rwa [Nat.succ_mul])

theorem lt_of_blocks_eq {T n : Nat} (h : T / c.outBlocksize = n) :
    T < n * c.outBlocksize + c.outBlocksize := by
  have hlt := Nat.lt_mul_div_succ T c.pos
  rw [h, Nat.mul_succ, Nat.mul_comm] at hlt
  exact hlt

theorem Running.reblocks_iff {popped left : List Block} (h : Running c popped k r)
    (hfew : r.nAvail < c.outBlocksize) : Reblocks c.outBlocksize (popped ++ left) r.emitted ↔
      Smooth c (popped ++ left) popped := by
  have hword := c.word
  have hcounted := h.counted
  have hemitted := length_emitted c h.sizes
  have hlen : (popped ++ left).flatten.length = popped.flatten.length + left.flatten.length := by
    rw [List.flatten_append, List.length_append]
  constructor
  · intro hre
    have hcomplete := hre.complete
    rw [hemitted, hlen] at hcomplete
    have hk : k = 0 := by omega
    have htaken : popped.flatten.length / c.outBlocksize = r.emitted.length :=
      blocks_eq (by omega) (by omega)
    have hall : (popped ++ left).flatten.length / c.outBlocksize = r.emitted.length :=
      blocks_eq (by omega) (by omega)
    exact ⟨h.fits.mp hk, htaken.trans hall.symm, hall ▸ h.accepted⟩
  · intro hsmooth
    have hk : k = 0 := h.fits.mpr hsmooth.fits
    have htaken : popped.flatten.length / c.outBlocksize = r.emitted.length :=
      blocks_eq (by omega) (by omega)
    have hlt := lt_of_blocks_eq (hsmooth.taken.symm.trans htaken)
    refine ⟨h.sizes, ?_, by rwa [hemitted]⟩
    rw [List.flatten_append, ← h.content hk, List.append_assoc]
    exact List.prefix_append _ _

theorem Stopped.not_reblocks {popped left : List Block} (h : Stopped c popped r) :
    ¬ Reblocks c.outBlocksize (popped ++ left) r.emitted ∧ ¬ Smooth c (popped ++ left) popped := by
  have hmore := h.more
  have hlen : (popped ++ left).flatten.length = popped.flatten.length + left.flatten.length := by
    rw [List.flatten_append, List.length_append]
  constructor
  · intro hre
    have hcomplete := hre.complete
    rw [length_emitted c h.sizes, hlen] at hcomplete
    omega
  · intro hsmooth
    have hlt : r.emitted.length < (popped ++ left).flatten.length / c.outBlocksize := by
      rw [← hsmooth.taken]
      exact (Nat.le_div_iff_mul_le c.pos).mpr (by rwa [Nat.succ_mul])
    exact absurd (hsmooth.accepted _ hlt) (by rw [h.refused]; exact Bool.false_ne_true)

theorem reblocks_iff_smooth {pushed popped : List Block} (hpop : popped <+: pushed) :
    ∃ r, c.queueReader popped Reader.restart = some r ∧
      (Reblocks c.outBlocksize pushed r.emitted ↔ Smooth c pushed popped) := by
  obtain ⟨left, rfl⟩ := hpop
  obtain ⟨r, heq, hend⟩ := @queueReader_spec c [] 0 _ popped Running.restart
  rw [List.nil_append] at hend
  refine ⟨r, heq, ?_⟩
  rcases hend with ⟨k, hrun, hfew⟩ | hstop
  · exact hrun.reblocks_iff hfew
  · obtain ⟨hre, hsmooth⟩ := @Stopped.not_reblocks c r popped left hstop
    exact iff_of_false hre hsmooth

/-- Two pushes, two pops. -/
theorem two_blocks (b b' : Block) : ∃ (t : Sys Bool Block) (as : List (Label Bool Block)),
    (system fun _ => True).Run ⟨BQueue.init 2, fun _ => .idle⟩ as t ∧
      (∀ a ∈ as, a.moves = true) ∧ as.flatMap Label.pushed = [b, b'] ∧
      as.flatMap Label.popped = [b, b'] := by
  have hrun := ((((Lib.Machine.Run.refl (M := system fun _ : Sys Bool Block => True)
    ⟨BQueue.init 2, fun _ => .idle⟩).snoc
      (@Step.enterLeave _ _ _ _ true (.tryPush b) _ _ _ _ rfl rfl (.nil _))).snoc
      (@Step.enterLeave _ _ _ _ true (.tryPush b') _ _ _ _ rfl rfl (.nil _))).snoc
      (@Step.enterLeave _ _ _ _ false .pop _ _ _ _ rfl rfl (.nil _))).snoc
      (@Step.enterLeave _ _ _ _ false .pop _ _ _ _ rfl rfl (.nil _))
  refine ⟨_, _, hrun, ?_, rfl, rfl⟩
  simp [Label.moves, Op.moves]

/-- Blocks of 3 GiB into blocks of 2 GiB. -/
def hugeSetup : Setup := ⟨2 ^ 31, by decide, by decide, fun _ => 0, fun _ => true⟩

theorem not_fits_huge {b b' : Block} (hb : b.length = 3 * 2 ^ 30) (hb' : b'.length = 3 * 2 ^ 30) :
    ¬ Fits hugeSetup [b, b'] := by
  intro h
  have hlt := h [b] b' [] rfl
  rw [List.flatten_singleton, hb, hb'] at hlt
  exact absurd hlt (by decide)

end Jive5ab.Interchain
