import Mathlib.Data.List.Basic
import Mathlib.Order.Basic
import Jive5ab.Lib.Machine

/-! # `bufferer`

Of `threadfns.cc`: blocks are held back until more bytes are buffered than asked for. The buffer is
made larger or smaller while it runs, and smaller by throwing bytes away. -/
namespace Jive5ab.Buffering
open Lib

/-- A block of memory: no object has more bytes. -/
structure Block where
  bytes : List UInt8
  fits : bytes.length < 2 ^ 63

def Block.iovLen (b : Block) : Nat := b.bytes.length

def total (bs : List Block) : Nat := (bs.map Block.iovLen).sum

@[simp] theorem total_nil : total [] = 0 := rfl

@[simp] theorem total_cons (b : Block) (bs : List Block) : total (b :: bs) = b.iovLen + total bs := by
  simp [total]

@[simp] theorem total_append (bs bs' : List Block) : total (bs ++ bs') = total bs + total bs' := by
  simp [total]

/-! ## The arguments -/

def uintMax : Nat := 2 ^ 32 - 1

structure BuffererArgs where
  bytestobuffer : UInt32
  bytestodrop : UInt32

def BuffererArgs.addBufsize (a : BuffererArgs) (bytes : UInt32) : BuffererArgs :=
  let btb := a.bytestobuffer.toNat + bytes.toNat
  if uintMax < btb then { a with bytestobuffer := .ofNat uintMax }
  else { a with bytestobuffer := .ofNat btb }

def BuffererArgs.decBufsize (a : BuffererArgs) (bytes : UInt32) : BuffererArgs :=
  let bytes := if a.bytestobuffer < bytes then a.bytestobuffer else bytes
  let btd := a.bytestodrop.toNat + bytes.toNat
  if uintMax < btd then
    { bytestobuffer := a.bytestobuffer - (UInt32.ofNat uintMax - a.bytestodrop)
      bytestodrop := .ofNat uintMax }
  else { bytestobuffer := a.bytestobuffer - bytes, bytestodrop := .ofNat btd }

/-! ## The thread -/

/-- `inHand` is the block that was popped last, until it is in the queue. What was received, what
was dropped and by how much the buffer was reduced is remembered only to speak of it. -/
structure State where
  args : BuffererArgs
  blockqueue : List Block
  bytesbuffered : UInt64
  inHand : Option Block
  outq : List Block
  received : List Block
  dropped : List Block
  reduced : Nat

def start (n : UInt32) : State := ⟨⟨n, 0⟩, [], 0, none, [], [], [], 0⟩

/-- A turn of the inner loop, or the end of it; there is no front of an empty queue. -/
def State.turn (s : State) (b : Block) : Option State :=
  if s.args.bytestobuffer.toNat < s.bytesbuffered.toNat then
    match s.blockqueue with
    | [] => none
    | topush :: rest =>
      let s := { s with
        blockqueue := rest, bytesbuffered := s.bytesbuffered - UInt64.ofNat topush.iovLen }
      if s.args.bytestodrop.toNat < topush.iovLen then some { s with outq := s.outq ++ [topush] }
      else
        some { s with
          args := { s.args with bytestodrop := s.args.bytestodrop - UInt32.ofNat topush.iovLen }
          dropped := s.dropped ++ [topush] }
  else
    some { s with
      blockqueue := s.blockqueue ++ [b]
      bytesbuffered := s.bytesbuffered + UInt64.ofNat b.iovLen
      inHand := none
      received := s.received ++ [b] }

inductive Event
  | pop (b : Block)
  | turn
  | add (bytes : UInt32)
  | dec (bytes : UInt32)

def step (s : State) : Event → Option State
  | .pop b => if s.inHand.isNone then some { s with inHand := some b } else none
  | .turn => s.inHand.bind s.turn
  | .add bytes => some { s with args := s.args.addBufsize bytes }
  | .dec bytes =>
    let args := s.args.decBufsize bytes
    some { s with
      args, reduced := s.reduced + (s.args.bytestobuffer.toNat - args.bytestobuffer.toNat) }

def bufferer : Machine State Event := ofFn (fun s => ∃ n, s = start n) step

/-! ## The arguments change by as much -/

/-- The buffer gets smaller by what there is more to drop. -/
theorem decBufsize_toNat (a : BuffererArgs) (bytes : UInt32) :
    (a.decBufsize bytes).bytestobuffer.toNat ≤ a.bytestobuffer.toNat ∧
      (a.decBufsize bytes).bytestodrop.toNat =
        a.bytestodrop.toNat + (a.bytestobuffer.toNat - (a.decBufsize bytes).bytestobuffer.toNat) := by
  have hbuffer := a.bytestobuffer.toNat_lt
  have hdrop := a.bytestodrop.toNat_lt
  have hmax : (UInt32.ofNat uintMax).toNat = uintMax := rfl
  have huint : uintMax = 4294967295 := rfl
  unfold BuffererArgs.decBufsize
  dsimp only
  generalize hn : (if a.bytestobuffer < bytes then a.bytestobuffer else bytes) = n
  have hle : n.toNat ≤ a.bytestobuffer.toNat := by
    subst hn
    split
    · exact Nat.le_refl _
    · rename_i hnot
      exact UInt32.le_iff_toNat_le.mp (UInt32.not_lt.mp hnot)
  split
  · rename_i hover
    have hrest : (UInt32.ofNat uintMax - a.bytestodrop).toNat = uintMax - a.bytestodrop.toNat := by
      rw [UInt32.toNat_sub_of_le _ _ (UInt32.le_iff_toNat_le.mpr (by omega)), hmax]
    have hsub : (a.bytestobuffer - (UInt32.ofNat uintMax - a.bytestodrop)).toNat =
        a.bytestobuffer.toNat - (uintMax - a.bytestodrop.toNat) := by
      rw [UInt32.toNat_sub_of_le _ _ (UInt32.le_iff_toNat_le.mpr (by omega)), hrest]
    dsimp only
    rw [hsub, hmax]
    omega
  · rename_i hfits
    have hsub : (a.bytestobuffer - n).toNat = a.bytestobuffer.toNat - n.toNat :=
      UInt32.toNat_sub_of_le _ _ (UInt32.le_iff_toNat_le.mpr hle)
    have hsum : (UInt32.ofNat (a.bytestodrop.toNat + n.toNat)).toNat =
        a.bytestodrop.toNat + n.toNat := UInt32.toNat_ofNat_of_lt' (by rw [UInt32.size]; omega)
    dsimp only
    rw [hsub, hsum]
    omega

theorem addBufsize_bytestodrop (a : BuffererArgs) (bytes : UInt32) :
    (a.addBufsize bytes).bytestodrop = a.bytestodrop := by
  unfold BuffererArgs.addBufsize
  dsimp only
  split <;> rfl

/-! ## What is kept -/

structure Inv (s : State) : Prop where
  count : s.bytesbuffered.toNat = total s.blockqueue
  small : total s.blockqueue < 2 ^ 32 + 2 ^ 63
  order : ∃ gone, s.received = gone ++ s.blockqueue ∧ s.outq.Sublist gone ∧
    total gone = total s.outq + total s.dropped
  drop : total s.dropped + s.args.bytestodrop.toNat = s.reduced

theorem start_inv (n : UInt32) : Inv (start n) :=
  ⟨rfl, show 0 < 2 ^ 32 + 2 ^ 63 by decide, ⟨[], rfl, List.Sublist.refl _, rfl⟩, rfl⟩

/-- The front of the queue goes, one way or the other. -/
theorem order_front {received outq dropped rest : List Block} {topush : Block} {gone : List Block}
    (h : received = gone ++ topush :: rest) (hsub : outq.Sublist gone)
    (hsum : total gone = total outq + total dropped) (pushed : Bool) :
    ∃ gone', received = gone' ++ rest ∧
      (if pushed then outq ++ [topush] else outq).Sublist gone' ∧
      total gone' = total (if pushed then outq ++ [topush] else outq) +
        total (if pushed then dropped else dropped ++ [topush]) := by
  refine ⟨gone ++ [topush], by rw [h, List.append_assoc]; rfl, ?_, ?_⟩
  · cases pushed with
    | true => exact hsub.append (List.Sublist.refl _)
    | false => exact hsub.trans (List.sublist_append_left _ _)
  · rw [total_append, hsum]
    cases pushed with
    | true =>
      simp only [if_pos, total_append]
      omega
    | false =>
      simp only [Bool.false_eq_true, if_false, total_append]
      omega

theorem turn_inv {s s' : State} {b : Block} (hinv : Inv s) (h : s.turn b = some s') : Inv s' := by
  obtain ⟨gone, hrec, hsub, hsum⟩ := hinv.order
  have hcount := hinv.count
  have hsmall := hinv.small
  unfold State.turn at h
  split at h
  · cases hqueue : s.blockqueue with
    | nil => simp [hqueue] at h
    | cons topush rest =>
      rw [hqueue] at h hrec hcount hsmall
      rw [total_cons] at hcount hsmall
      have hlen : (UInt64.ofNat topush.iovLen).toNat = topush.iovLen :=
        UInt64.toNat_ofNat_of_lt' (by rw [UInt64.size]; exact Nat.lt_trans topush.fits (by decide))
      have hleft : (s.bytesbuffered - UInt64.ofNat topush.iovLen).toNat = total rest := by
        rw [UInt64.toNat_sub_of_le _ _ (UInt64.le_iff_toNat_le.mpr (by rw [hlen]; omega)), hlen]
        omega
      dsimp only at h
      split at h
      · obtain rfl := Option.some.inj h
        exact ⟨hleft, by dsimp only; omega, order_front hrec hsub hsum true, hinv.drop⟩
      · rename_i hfits
        obtain rfl := Option.some.inj h
        have hbytes : (UInt32.ofNat topush.iovLen).toNat = topush.iovLen := by
          have := s.args.bytestodrop.toNat_lt
          exact UInt32.toNat_ofNat_of_lt' (by rw [UInt32.size]; omega)
        have hdrop : (s.args.bytestodrop - UInt32.ofNat topush.iovLen).toNat =
            s.args.bytestodrop.toNat - topush.iovLen := by
          rw [UInt32.toNat_sub_of_le _ _ (UInt32.le_iff_toNat_le.mpr (by rw [hbytes]; omega)), hbytes]
        have hold := hinv.drop
        refine ⟨hleft, by dsimp only; omega, order_front hrec hsub hsum false, ?_⟩
        dsimp only
        rw [hdrop, total_append, total_cons, total_nil]
        omega
  · rename_i hend
    obtain rfl := Option.some.inj h
    have hbuffer := s.args.bytestobuffer.toNat_lt
    have hfits : b.iovLen < 2 ^ 63 := b.fits
    have hlen : (UInt64.ofNat b.iovLen).toNat = b.iovLen :=
      UInt64.toNat_ofNat_of_lt' (by rw [UInt64.size]; omega)
    refine ⟨?_, ?_, ⟨gone, ?_, hsub, hsum⟩, hinv.drop⟩
    · dsimp only
      rw [UInt64.toNat_add, hlen, total_append, total_cons, total_nil, Nat.mod_eq_of_lt (by omega)]
      omega
    · dsimp only
      rw [total_append, total_cons, total_nil]
      omega
    · dsimp only
      rw [hrec, List.append_assoc]

theorem step_inv {s s' : State} {e : Event} (hinv : Inv s) (h : step s e = some s') : Inv s' := by
  cases e with
  | pop b =>
    rw [step] at h
    split at h
    · obtain rfl := Option.some.inj h
      exact ⟨hinv.count, hinv.small, hinv.order, hinv.drop⟩
    · cases h
  | turn =>
    obtain ⟨b, -, hturn⟩ := Option.bind_eq_some_iff.mp h
    exact turn_inv hinv hturn
  | add bytes =>
    obtain rfl := Option.some.inj h
    refine ⟨hinv.count, hinv.small, hinv.order, ?_⟩
    dsimp only
    rw [addBufsize_bytestodrop]
    exact hinv.drop
  | dec bytes =>
    obtain rfl := Option.some.inj h
    obtain ⟨-, hdrop⟩ := decBufsize_toNat s.args bytes
    have hold := hinv.drop
    refine ⟨hinv.count, hinv.small, hinv.order, ?_⟩
    dsimp only
    rw [hdrop]
    omega

theorem reachable_inv {s : State} (h : bufferer.Reachable s) : Inv s :=
  h.invariant Inv (fun s hs => by obtain ⟨n, rfl⟩ := hs; exact start_inv n)
    fun _ _ _ hinv hstep => step_inv hinv hstep

/-- When there is more in the buffer than asked for, there is a front of the queue. -/
theorem turn_isSome {s : State} (h : bufferer.Reachable s) (b : Block) : (s.turn b).isSome := by
  have hcount := (reachable_inv h).count
  unfold State.turn
  split
  · cases hqueue : s.blockqueue with
    | nil =>
      rw [hqueue, total_nil] at hcount
      omega
    | cons topush rest =>
      dsimp only
      split <;> rfl
  · rfl

/-- When a block has been put into the queue, no more is buffered than asked for but for it. -/
theorem queued_le {s s' : State} {b : Block} (hinv : Inv s) (h : s.turn b = some s')
    (hput : s'.inHand = none) (hhand : s.inHand = some b) :
    total s'.blockqueue ≤ s'.args.bytestobuffer.toNat + b.iovLen := by
  have hcount := hinv.count
  unfold State.turn at h
  split at h
  · cases hqueue : s.blockqueue with
    | nil => simp [hqueue] at h
    | cons topush rest =>
      rw [hqueue] at h
      dsimp only at h
      split at h
      · obtain rfl := Option.some.inj h
        exact absurd (hhand.symm.trans hput) (Option.some_ne_none b)
      · obtain rfl := Option.some.inj h
        exact absurd (hhand.symm.trans hput) (Option.some_ne_none b)
  · obtain rfl := Option.some.inj h
    dsimp only
    rw [total_append, total_cons, total_nil]
    omega

def Block.zeroes (n : Nat) (h : n < 2 ^ 63) : Block := ⟨List.replicate n 0, by simpa using h⟩

/-- Two blocks of four bytes, a buffer of six bytes that is reduced by five, and a third block. -/
def events : List Event :=
  [.pop (.zeroes 4 (by decide)), .turn, .pop (.zeroes 4 (by decide)), .turn, .dec 5,
    .pop (.zeroes 2 (by decide)), .turn, .turn, .turn]

def afterEvents : State where
  args := ⟨1, 1⟩
  blockqueue := [.zeroes 2 (by decide)]
  bytesbuffered := 2
  inHand := none
  outq := [.zeroes 4 (by decide)]
  received := [.zeroes 4 (by decide), .zeroes 4 (by decide), .zeroes 2 (by decide)]
  dropped := [.zeroes 4 (by decide)]
  reduced := 5

theorem afterEvents_reachable : bufferer.Reachable afterEvents :=
  (ofFn_run (show events.foldlM step (start 6) = some afterEvents from rfl)).reachable ⟨6, rfl⟩

end Jive5ab.Buffering
