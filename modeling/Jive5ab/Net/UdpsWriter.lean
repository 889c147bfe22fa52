import Mathlib.Data.List.Induction
import Jive5ab.Constraints.Soundness
import Jive5ab.Lib.Slice

/-! # `udpswriter`

Each popped item is a list of blocks, each block is sent in chunks of `write_size` bytes, each
behind a sequence number. The number is counted up when a send succeeds. A send that fails leaves
the loop over the chunks and raises `stop`, which only the loop over the items looks at. -/
namespace Jive5ab.Net.UdpsWriter
open Lib Constraints

abbrev Bytes := List UInt8

/-- What `sendmsg` did: it handed a datagram to the network, or it failed. -/
inductive Sent where
  | datagram (seqnr : UInt64) (payload : Bytes)
  | failed
deriving DecidableEq

structure Writer where
  seqnr : UInt64
  nbyte : UInt64
  stop : Bool
  wire : List Sent
deriving DecidableEq

section Loops

-- whether the `i`-th call of `sendmsg` succeeds, and `write_size`
variable (sendmsg : Nat → Bool) (wrSize : Nat)

/-- One turn of the loop over the chunks. -/
def Writer.send (wr : Writer) (chunk : Bytes) : Writer :=
  if sendmsg wr.wire.length then
    { wr with seqnr := wr.seqnr + 1, nbyte := wr.nbyte + .ofNat wrSize,
              wire := wr.wire ++ [.datagram wr.seqnr chunk] }
  else { wr with stop := true, wire := wr.wire ++ [.failed] }

/-- `while( (ptr+wr_size)<=eptr )`; a `write_size` of 0 does not get past `validate`. -/
def sendBlock (block : Bytes) (ptr : Nat) (wr : Writer) : Writer :=
  if 0 < wrSize ∧ ptr + wrSize ≤ block.length then
    let sent := wr.send sendmsg wrSize (slice block ptr wrSize)
    if sendmsg wr.wire.length then sendBlock block (ptr + wrSize) sent else sent
  else wr
termination_by block.length - ptr

/-- The loop over the blocks of an item does not look at `stop`. -/
def sendItem (item : List Bytes) (wr : Writer) : Writer :=
  item.foldl (fun wr block => sendBlock sendmsg wrSize block 0 wr) wr

/-- `while( !stop )`, until the queue has no more items. -/
def sendItems : List (List Bytes) → Writer → Writer
  | [], wr => wr
  | item :: items, wr => if wr.stop then wr else sendItems items (sendItem sendmsg wrSize item wr)

end Loops

/-- What `udpswriter` sends, from the first sequence number on. -/
def udpswriter (sizes : ConstraintSet) (cancelled : Bool) (random : UInt64)
    (sendmsg : Nat → Bool) (items : List (List Bytes)) : Except Failure (List Sent) := do
  sizes.validate
  if cancelled then return []
  return (sendItems sendmsg sizes.writeSize.toNat items ⟨random, 0, false, []⟩).wire

/-! ## What the numbers should say -/

def Sent.content : Sent → Option (UInt64 × Bytes)
  | .datagram seqnr payload => some (seqnr, payload)
  | .failed => none

/-- Datagram `i` has number `s0 + i` and chunk `i` of the stream, and there is none after a send
that failed. -/
structure Identifies (s0 : UInt64) (wrSize : Nat) (stream : Bytes) (wire : List Sent) : Prop where
  numbered : ∀ i d, (wire.filterMap Sent.content)[i]? = some d →
    d = (s0 + .ofNat i, slice stream (i * wrSize) wrSize)
  silent : ∀ i j : Nat, i < j → wire[i]? = some Sent.failed → ∀ d, wire[j]? = some d → d = Sent.failed

/-- How many blocks with a chunk come after the block of chunk `k`, in one item. -/
def blocksAfter : List Nat → Nat → Nat
  | [], _ => 0
  | n :: ns, k => if k < n then ns.countP (0 < ·) else blocksAfter ns (k - n)

/-- The same in the item of chunk `k`. -/
def laterBlocks : List (List Nat) → Nat → Nat
  | [], _ => 0
  | ns :: items, k => if k < ns.sum then blocksAfter ns k else laterBlocks items (k - ns.sum)

/-- How many chunks each block of each item has. -/
def chunkCounts (wrSize : Nat) (items : List (List Bytes)) : List (List Nat) :=
  items.map fun item => item.map fun block => block.length / wrSize

/-- When the send of chunk `k` is the first to fail, the next send of every later block of that
item fails too. -/
def FailsToTheEnd (sendmsg : Nat → Bool) (counts : List (List Nat)) : Prop :=
  ∀ k < counts.flatten.sum, sendmsg k = false → (∀ j < k, sendmsg j = true) →
    ∀ r < laterBlocks counts k, sendmsg (k + 1 + r) = false

/-! ## The chunks of a block -/

section Loops
variable (sendmsg : Nat → Bool) (wrSize : Nat)

/-- The loop over the chunks, given as a list. -/
def sendEach : List Bytes → Writer → Writer
  | [], wr => wr
  | c :: cs, wr =>
    if sendmsg wr.wire.length then sendEach cs (wr.send sendmsg wrSize c)
    else wr.send sendmsg wrSize c

theorem sendBlock_from (hw : 0 < wrSize) (block : Bytes) (i : Nat) (wr : Writer) :
    sendBlock sendmsg wrSize block (i * wrSize) wr =
      sendEach sendmsg wrSize ((pieces wrSize block).drop i) wr := by
  induction h : block.length / wrSize - i generalizing i wr with
  | zero =>
    have hout : ¬(0 < wrSize ∧ i * wrSize + wrSize ≤ block.length) := by
      rintro ⟨-, hfit⟩
      rw [← Nat.succ_mul, ← Nat.le_div_iff_mul_le hw] at hfit
      omega
    rw [sendBlock, if_neg hout, List.drop_eq_nil_of_le (by rw [length_pieces]; omega), sendEach]
  | succ n ih =>
    have hi : i < (pieces wrSize block).length := by rw [length_pieces]; omega
    have hfit : i * wrSize + wrSize ≤ block.length := by
      rw [← Nat.succ_mul, ← Nat.le_div_iff_mul_le hw]
      omega
    have hnext : i * wrSize + wrSize = (i + 1) * wrSize := (Nat.succ_mul i wrSize).symm
    rw [sendBlock, if_pos ⟨hw, hfit⟩, List.drop_eq_getElem_cons hi, getElem_pieces, sendEach]
    simp only [hnext, ih (i + 1) _ (by omega)]

theorem sendItem_eq (hw : 0 < wrSize) (item : List Bytes) (wr : Writer) :
    sendItem sendmsg wrSize item wr =
      (item.map (pieces wrSize)).foldl (fun wr cs => sendEach sendmsg wrSize cs wr) wr := by
  rw [sendItem, List.foldl_map]
  congr
  funext wr block
  simpa using sendBlock_from sendmsg wrSize hw block 0 wr

/-! ## Until the first send that fails -/

/-- `done` went out as it should, every chunk under its own number. -/
def numbered (s0 : UInt64) (done : List Bytes) : List Sent :=
  done.mapIdx fun i c => .datagram (s0 + .ofNat i) c

structure Unbroken (s0 : UInt64) (done : List Bytes) (wr : Writer) : Prop where
  stop : wr.stop = false
  seqnr : wr.seqnr = s0 + .ofNat done.length
  wire : wr.wire = numbered s0 done

structure Broken (s0 : UInt64) (done : List Bytes) (rest : List Sent) (wr : Writer) : Prop where
  stop : wr.stop = true
  wire : wr.wire = numbered s0 done ++ .failed :: rest

/-- Send `n + k` is the first to fail from send `n` on. -/
def FirstFailure (n k : Nat) : Prop :=
  (∀ j < k, sendmsg (n + j) = true) ∧ sendmsg (n + k) = false

variable {sendmsg wrSize} {s0 : UInt64} {done : List Bytes} {wr : Writer}

theorem Unbroken.attempts (h : Unbroken s0 done wr) : wr.wire.length = done.length := by
  simp [h.wire, numbered]

theorem Unbroken.send (h : Unbroken s0 done wr) (hok : sendmsg done.length = true) (c : Bytes) :
    Unbroken s0 (done ++ [c]) (wr.send sendmsg wrSize c) := by
  have hnext : wr.seqnr + 1 = s0 + .ofNat (done.length + 1) := by
    rw [h.seqnr, UInt64.ofNat_add, UInt64.add_assoc]
    rfl
  have hsend : wr.send sendmsg wrSize c =
      { wr with seqnr := wr.seqnr + 1, nbyte := wr.nbyte + .ofNat wrSize,
                wire := wr.wire ++ [.datagram wr.seqnr c] } := by
    rw [Writer.send, h.attempts, if_pos hok]
  rw [hsend]
  exact ⟨h.stop, by simpa using hnext, by simp [h.wire, h.seqnr, numbered, List.mapIdx_concat]⟩

theorem Unbroken.fail (h : Unbroken s0 done wr) (hfail : sendmsg done.length = false) (c : Bytes) :
    Broken s0 done [] (wr.send sendmsg wrSize c) := by
  have hsend : wr.send sendmsg wrSize c =
      { wr with stop := true, wire := wr.wire ++ [.failed] } := by
    simp [Writer.send, h.attempts, hfail]
  rw [hsend]
  exact ⟨rfl, by simp [h.wire]⟩

theorem FirstFailure.succ {n k : Nat} (hok : sendmsg n = true)
    (h : FirstFailure sendmsg (n + 1) k) : FirstFailure sendmsg n (k + 1) := by
  refine ⟨?_, by rw [← h.2]; congr 1; omega⟩
  intro j hj
  cases j with
  | zero => exact hok
  | succ j =>
    rw [← h.1 j (by omega)]
    congr 1
    omega

/-- A block goes out whole, or up to the first send that fails. -/
theorem sendEach_outcome (h : Unbroken s0 done wr) (cs : List Bytes) :
    ((∀ j < cs.length, sendmsg (done.length + j) = true) ∧
        Unbroken s0 (done ++ cs) (sendEach sendmsg wrSize cs wr)) ∨
      ∃ k < cs.length, FirstFailure sendmsg done.length k ∧
        Broken s0 (done ++ cs.take k) [] (sendEach sendmsg wrSize cs wr) := by
  induction cs generalizing done wr with
  | nil => exact .inl ⟨by simp, by simpa [sendEach] using h⟩
  | cons c cs ih =>
    rw [sendEach, h.attempts]
    cases hsend : sendmsg done.length with
    | false =>
      refine .inr ⟨0, by simp, ⟨by simp, by simpa using hsend⟩, ?_⟩
      simpa using h.fail hsend c
    | true =>
      obtain ⟨hall, hdone⟩ | ⟨k, hk, hfirst, hbroken⟩ := ih (h.send hsend c)
      · refine .inl ⟨?_, by simpa using hdone⟩
        intro j hj
        cases j with
        | zero => exact hsend
        | succ j => simpa [Nat.add_assoc, Nat.add_comm 1 j] using hall j (by simpa using hj)
      · refine .inr ⟨k + 1, by simpa using hk, ?_, by simpa using hbroken⟩
        exact FirstFailure.succ hsend (by simpa using hfirst)

/-! ## After the first send that fails -/

theorem sendEach_extends (cs : List Bytes) (wr : Writer) :
    ∃ more, (sendEach sendmsg wrSize cs wr).wire = wr.wire ++ more ∧
      (wr.stop = true → (sendEach sendmsg wrSize cs wr).stop = true) := by
  induction cs generalizing wr with
  | nil => exact ⟨[], by simp [sendEach]⟩
  | cons c cs ih =>
    rw [sendEach]
    split
    case isTrue hok =>
      have hsend : (wr.send sendmsg wrSize c).wire = wr.wire ++ [.datagram wr.seqnr c] ∧
          (wr.send sendmsg wrSize c).stop = wr.stop := by
        simp [Writer.send, hok]
      obtain ⟨more, hmore, hstop⟩ := ih (wr.send sendmsg wrSize c)
      rw [hsend.1, List.append_assoc] at hmore
      exact ⟨_, hmore, by rwa [hsend.2] at hstop⟩
    case isFalse hfail =>
      exact ⟨[.failed], by simp [Writer.send, hfail]⟩

/-- The blocks that are left send nothing exactly if each one's next send fails. -/
theorem foldl_stopped (blocks : List (List Bytes)) {wr : Writer} (hstop : wr.stop = true) :
    ∃ more, (blocks.foldl (fun wr cs => sendEach sendmsg wrSize cs wr) wr).stop = true ∧
      (blocks.foldl (fun wr cs => sendEach sendmsg wrSize cs wr) wr).wire = wr.wire ++ more ∧
      ((∀ e ∈ more, e = .failed) ↔
        ∀ r < (blocks.map List.length).countP (0 < ·), sendmsg (wr.wire.length + r) = false) := by
  induction blocks generalizing wr with
  | nil => exact ⟨[], hstop, by simp⟩
  | cons cs blocks ih =>
    cases cs with
    | nil => simpa [sendEach] using ih hstop
    | cons c cs =>
      rw [List.foldl_cons, sendEach]
      cases hsend : sendmsg wr.wire.length with
      | true =>
        -- the block is sent, or a part of it
        have hwire : (wr.send sendmsg wrSize c).wire = wr.wire ++ [.datagram wr.seqnr c] := by
          simp [Writer.send, hsend]
        have hst : (wr.send sendmsg wrSize c).stop = true := by simp [Writer.send, hsend, hstop]
        obtain ⟨sent, hsent, hkeep⟩ :=
          @sendEach_extends sendmsg wrSize cs (wr.send sendmsg wrSize c)
        obtain ⟨more, hstop', hmore, -⟩ := ih (hkeep hst)
        rw [hsent, hwire, List.append_assoc, List.append_assoc] at hmore
        refine ⟨_, hstop', hmore, ?_⟩
        constructor
        · intro hall
          simpa using hall (.datagram wr.seqnr c) (by simp)
        · intro hall
          have := hall 0 (by simp)
          simp [hsend] at this
      | false =>
        have hwire : (wr.send sendmsg wrSize c).wire = wr.wire ++ [.failed] := by
          simp [Writer.send, hsend]
        have hst : (wr.send sendmsg wrSize c).stop = true := by simp [Writer.send, hsend]
        obtain ⟨more, hstop', hmore, hiff⟩ := ih hst
        rw [hwire, List.append_assoc] at hmore
        refine ⟨_, hstop', hmore, ?_⟩
        rw [hwire, List.length_append, List.length_singleton] at hiff
        simp only [List.singleton_append, List.forall_mem_cons, true_and, hiff, List.map_cons,
          List.length_cons, Nat.zero_lt_succ, decide_true, List.countP_cons_of_pos,
          Nat.forall_lt_succ_left, Nat.add_zero, hsend, Nat.add_assoc, Nat.add_comm 1]

/-! ## Items -/

/-- What is left of an item or of a list of items, `n` chunks into the run: all of it goes out, or
chunk `k` is the first that fails and `later` is the number of blocks that are tried after it. -/
def Outcome (sendmsg : Nat → Bool) (s0 : UInt64) (done todo : List Bytes) (later : Nat → Nat)
    (wr : Writer) : Prop :=
  ((∀ j < todo.length, sendmsg (done.length + j) = true) ∧ Unbroken s0 (done ++ todo) wr) ∨
    ∃ k < todo.length, FirstFailure sendmsg done.length k ∧
      ∃ more, Broken s0 (done ++ todo.take k) more wr ∧
        ((∀ e ∈ more, e = .failed) ↔
          ∀ r < later k, sendmsg (done.length + k + 1 + r) = false)

theorem FirstFailure.after {n m k : Nat} (hall : ∀ j < m, sendmsg (n + j) = true)
    (h : FirstFailure sendmsg (n + m) k) : FirstFailure sendmsg n (m + k) := by
  refine ⟨?_, by rw [← Nat.add_assoc]; exact h.2⟩
  intro j hj
  rcases Nat.lt_or_ge j m with hlt | hge
  · exact hall j hlt
  · rw [← h.1 (j - m) (by omega)]
    congr 1
    omega

/-- A part that went out whole, and then the rest. -/
theorem Outcome.append {todo rest : List Bytes} {later later' : Nat → Nat}
    (hall : ∀ j < todo.length, sendmsg (done.length + j) = true)
    (h : Outcome sendmsg s0 (done ++ todo) rest later wr)
    (hlater : ∀ k, later' (todo.length + k) = later k) :
    Outcome sendmsg s0 done (todo ++ rest) later' wr := by
  rw [Outcome, List.length_append, List.append_assoc] at h
  obtain ⟨hrest, hdone⟩ | ⟨k, hk, hfirst, more, hbroken, hiff⟩ := h
  · refine .inl ⟨?_, hdone⟩
    intro j hj
    rcases Nat.lt_or_ge j todo.length with hlt | hge
    · exact hall j hlt
    · rw [List.length_append] at hj
      rw [← hrest (j - todo.length) (by omega)]
      congr 1
      omega
  · refine .inr ⟨todo.length + k, by simpa using hk, hfirst.after hall, more, ?_, ?_⟩
    · rwa [List.take_length_add_append, ← List.append_assoc]
    · rw [hiff, hlater, Nat.add_assoc done.length]

theorem Outcome.extend {todo : List Bytes} {later : Nat → Nat} (rest : List Bytes) {k : Nat}
    {more : List Sent} (hk : k < todo.length) (hfirst : FirstFailure sendmsg done.length k)
    (hbroken : Broken s0 (done ++ todo.take k) more wr)
    (hiff : (∀ e ∈ more, e = .failed) ↔
      ∀ r < later k, sendmsg (done.length + k + 1 + r) = false) :
    Outcome sendmsg s0 done (todo ++ rest) later wr := by
  refine .inr ⟨k, by rw [List.length_append]; omega, hfirst, more, ?_, hiff⟩
  rwa [List.take_append_of_le_length (Nat.le_of_lt hk)]

/-- The loop over the blocks of an item. -/
theorem item_outcome (h : Unbroken s0 done wr) (blocks : List (List Bytes)) :
    Outcome sendmsg s0 done blocks.flatten (blocksAfter (blocks.map List.length))
      (blocks.foldl (fun wr cs => sendEach sendmsg wrSize cs wr) wr) := by
  induction blocks generalizing done wr with
  | nil => exact .inl ⟨by simp, by simpa using h⟩
  | cons cs blocks ih =>
    rw [List.foldl_cons, List.flatten_cons, List.map_cons]
    obtain ⟨hall, hdone⟩ | ⟨k, hk, hfirst, hbroken⟩ :=
      @sendEach_outcome sendmsg wrSize s0 done wr h cs
    · refine (ih hdone).append hall ?_
      intro k
      rw [blocksAfter, if_neg (by omega), Nat.add_sub_cancel_left]
    · obtain ⟨more, hstop, hwire, hiff⟩ :=
        @foldl_stopped sendmsg wrSize blocks _ hbroken.stop
      have hn : (sendEach sendmsg wrSize cs wr).wire.length = done.length + k + 1 := by
        simp [hbroken.wire, numbered, Nat.min_eq_left (Nat.le_of_lt hk)]
      rw [hn] at hiff
      refine Outcome.extend _ hk hfirst (@Broken.mk s0 _ more _ hstop ?_) ?_
      · rw [hwire, hbroken.wire, List.append_assoc]
        rfl
      · rwa [blocksAfter, if_pos hk]

/-- The loop over the items ends with the item in which a send failed. -/
theorem items_outcome (hw : 0 < wrSize) (h : Unbroken s0 done wr) (items : List (List Bytes)) :
    Outcome sendmsg s0 done (items.flatten.flatMap (pieces wrSize))
      (laterBlocks (chunkCounts wrSize items)) (sendItems sendmsg wrSize items wr) := by
  induction items generalizing done wr with
  | nil => exact .inl ⟨by simp, by simpa [sendItems] using h⟩
  | cons item items ih =>
    have hcounts : (item.map (pieces wrSize)).map List.length =
        item.map fun block => block.length / wrSize := by
      simp [Function.comp_def]
    have hlen : (item.flatMap (pieces wrSize)).length =
        (item.map fun block => block.length / wrSize).sum := by
      rw [List.length_flatMap]
      simp
    have hitem := @item_outcome sendmsg wrSize s0 done wr h (item.map (pieces wrSize))
    rw [← sendItem_eq sendmsg wrSize hw, hcounts, ← List.flatMap_def] at hitem
    rw [sendItems, h.stop, List.flatten_cons, List.flatMap_append]
    obtain ⟨hall, hdone⟩ | ⟨k, hk, hfirst, more, hbroken, hiff⟩ := hitem
    · refine (ih hdone).append hall ?_
      intro k
      rw [chunkCounts, List.map_cons, laterBlocks, if_neg (by omega), hlen,
        Nat.add_sub_cancel_left]
      rfl
    · have hend : sendItems sendmsg wrSize items (sendItem sendmsg wrSize item wr) =
          sendItem sendmsg wrSize item wr := by
        cases items with
        | nil => rfl
        | cons _ _ => rw [sendItems, if_pos hbroken.stop]
      rw [if_neg (by simp), hend]
      refine Outcome.extend _ hk hfirst hbroken ?_
      rwa [chunkCounts, List.map_cons, laterBlocks, if_pos (by omega)]

end Loops

/-! ## The numbers identify the payload -/

theorem filterMap_numbered (s0 : UInt64) (done : List Bytes) :
    (numbered s0 done).filterMap Sent.content = done.mapIdx fun i c => (s0 + .ofNat i, c) := by
  induction done using List.reverseRecOn with
  | nil => rfl
  | append_singleton done c ih =>
    rw [numbered] at ih
    simp [numbered, List.mapIdx_concat, ih, Sent.content]

theorem filterMap_failed {more : List Sent} (hmore : ∀ e ∈ more, e = .failed) :
    more.filterMap Sent.content = [] := by
  rw [List.filterMap_eq_nil_iff]
  intro e he
  rw [hmore e he]
  rfl

/-- `chunks` are the chunks of the stream, the first ones of them are out. -/
theorem identifies_numbered {s0 : UInt64} {wrSize : Nat} {chunks : List Bytes} {n : Nat}
    {more : List Sent} (hsize : ∀ c ∈ chunks, c.length = wrSize)
    (hmore : ∀ e ∈ more, e = .failed) :
    Identifies s0 wrSize chunks.flatten (numbered s0 (chunks.take n) ++ more) := by
  refine ⟨?_, ?_⟩
  · intro i d hd
    rw [List.filterMap_append, filterMap_numbered, filterMap_failed hmore, List.append_nil,
      List.getElem?_mapIdx, Option.map_eq_some_iff] at hd
    obtain ⟨c, hc, rfl⟩ := hd
    have hci : chunks[i]? = some c := by
      rw [List.getElem?_take] at hc
      split at hc
      · exact hc
      · cases hc
    have := slice_flatMap (f := id) (m := wrSize) hsize hci
    rw [List.flatMap_id] at this
    rw [this]
    rfl
  · intro i j hij hi d hd
    rcases Nat.lt_or_ge i (numbered s0 (chunks.take n)).length with hlt | hge
    · rw [List.getElem?_append_left hlt, numbered, List.getElem?_mapIdx] at hi
      simp at hi
    · rw [List.getElem?_append_right (by omega)] at hd
      exact hmore d (List.mem_of_getElem? hd)

theorem silent_after {s0 : UInt64} {wrSize : Nat} {stream : Bytes} {done : List Bytes}
    {more : List Sent}
    (h : Identifies s0 wrSize stream (numbered s0 done ++ .failed :: more)) :
    ∀ e ∈ more, e = .failed := by
  intro e he
  obtain ⟨i, hi, rfl⟩ := List.mem_iff_getElem.mp he
  refine h.silent (numbered s0 done).length ((numbered s0 done).length + 1 + i) (by omega) ?_ _ ?_
  · simp
  · rw [List.getElem?_append_right (by omega),
      show (numbered s0 done).length + 1 + i - (numbered s0 done).length = i + 1 by omega]
    simp [hi]

theorem flatten_chunks {wrSize : Nat} {blocks : List Bytes}
    (h : ∀ block ∈ blocks, wrSize ∣ block.length) :
    (blocks.flatMap (pieces wrSize)).flatten = blocks.flatten := by
  induction blocks with
  | nil => rfl
  | cons block blocks ih =>
    rw [List.flatMap_cons, List.flatten_append, flatten_pieces (h block (by simp)),
      ih fun b hb => h b (by simp [hb]), List.flatten_cons]

theorem length_chunks (wrSize : Nat) (items : List (List Bytes)) :
    (items.flatten.flatMap (pieces wrSize)).length = (chunkCounts wrSize items).flatten.sum := by
  simp [chunkCounts, List.length_flatMap, ← List.map_flatten]

theorem Outcome.identifies_iff {sendmsg : Nat → Bool} {s0 : UInt64} {wrSize : Nat}
    {chunks : List Bytes} {counts : List (List Nat)} {wr : Writer}
    (h : Outcome sendmsg s0 [] chunks (laterBlocks counts) wr)
    (hsize : ∀ c ∈ chunks, c.length = wrSize) (hcounts : chunks.length = counts.flatten.sum) :
    Identifies s0 wrSize chunks.flatten wr.wire ↔ FailsToTheEnd sendmsg counts := by
  rw [Outcome] at h
  simp only [List.length_nil, Nat.zero_add, List.nil_append] at h
  obtain ⟨hall, hdone⟩ | ⟨k, hk, hfirst, more, hbroken, hiff⟩ := h
  · have hout : Identifies s0 wrSize chunks.flatten wr.wire := by
      simpa [hdone.wire] using
        @identifies_numbered s0 wrSize chunks chunks.length [] hsize (by simp)
    refine ⟨?_, fun _ => hout⟩
    intro _ k hk hfail _ _ _
    rw [hall k (by omega)] at hfail
    cases hfail
  · simp only [FirstFailure, Nat.zero_add] at hfirst
    rw [hbroken.wire]
    constructor
    · intro hid k' hk' hfail hbefore
      obtain rfl : k' = k := by
        rcases Nat.lt_trichotomy k' k with hlt | heq | hgt
        · rw [hfirst.1 k' hlt] at hfail
          cases hfail
        · exact heq
        · rw [hbefore k hgt] at hfirst
          cases hfirst.2
      exact hiff.mp (silent_after hid)
    · intro hfails
      refine identifies_numbered hsize ?_
      intro e he
      cases he with
      | head => rfl
      | tail _ he => exact hiff.mpr (hfails k (by omega) hfirst.2 hfirst.1) e he

/-- The sequence numbers identify the payload exactly if the first send that fails is the last
that is tried, or every one that is tried after it in the same item fails too. -/
theorem numbers_identify_payload (sizes : ConstraintSet) (cancelled : Bool) (s0 : UInt64)
    (sendmsg : Nat → Bool) (items : List (List Bytes))
    (hblocks : ∀ item ∈ items, ∀ block ∈ item, sizes.writeSize.toNat ∣ block.length) :
    (∀ wire, udpswriter sizes cancelled s0 sendmsg items = .ok wire →
        Identifies s0 sizes.writeSize.toNat items.flatten.flatten wire) ↔
      (sizes.validate = .ok () → cancelled = false →
        FailsToTheEnd sendmsg (chunkCounts sizes.writeSize.toNat items)) := by
  cases hv : sizes.validate with
  | error e => simp [udpswriter, hv, Bind.bind, Except.bind]
  | ok _ =>
    cases cancelled with
    | true =>
      have hnil : Identifies s0 sizes.writeSize.toNat items.flatten.flatten [] :=
        ⟨by simp, by simp⟩
      simpa [udpswriter, hv, Bind.bind, Except.bind, Pure.pure, Except.pure] using hnil
    | false =>
      have hpos : 0 < sizes.writeSize.toNat := (validate_iff_valid.mp hv).writeSize_pos
      have hstream := @flatten_chunks sizes.writeSize.toNat items.flatten (by
        intro block hb
        obtain ⟨item, hi, hb⟩ := List.mem_flatten.mp hb
        exact hblocks item hi block hb)
      have hsize : ∀ c ∈ items.flatten.flatMap (pieces sizes.writeSize.toNat),
          c.length = sizes.writeSize.toNat := by
        intro c hc
        obtain ⟨block, -, hc⟩ := List.mem_flatMap.mp hc
        exact length_of_mem_pieces hc
      have hstart : Unbroken s0 [] ⟨s0, 0, false, []⟩ := ⟨rfl, by simp, rfl⟩
      have hrun := @items_outcome sendmsg _ s0 [] _ hpos hstart items
      simp only [udpswriter, hv, Bind.bind, Except.bind, Pure.pure, Except.pure, Bool.false_eq_true,
        if_false, Except.ok.injEq, forall_eq', forall_const, ← hstream]
      exact hrun.identifies_iff hsize (length_chunks _ _)

/-- Datagrams of one word. -/
def oneWord : ConstraintSet where
  blocksize := 8
  readSize := 8
  writeSize := 8
  mtu := 64
  protocolOverhead := 36
  applicationOverhead := 8
  compressOffset := 0

def twoWords : List (List Bytes) := [[List.replicate 8 1, List.replicate 8 2]]

theorem numbers_identify_payload_fails_once :
    (∀ wire, udpswriter oneWord false 7 (fun i => i == 0) twoWords = .ok wire →
        Identifies 7 oneWord.writeSize.toNat twoWords.flatten.flatten wire) ↔
      (oneWord.validate = .ok () → false = false →
        FailsToTheEnd (fun i => i == 0) (chunkCounts oneWord.writeSize.toNat twoWords)) :=
  numbers_identify_payload oneWord false 7 (fun i => i == 0) twoWords (by decide)

/-- The first block of an item is lost, the second one goes out under its number. -/
theorem lost_number_is_reused :
    (∀ item ∈ twoWords, ∀ block ∈ item, oneWord.writeSize.toNat ∣ block.length) ∧
      udpswriter oneWord false 7 (fun i => i != 0) twoWords =
        .ok [.failed, .datagram 7 (List.replicate 8 2)] ∧
      ¬ Identifies 7 oneWord.writeSize.toNat twoWords.flatten.flatten
        [.failed, .datagram 7 (List.replicate 8 2)] := by
  refine ⟨by decide, ?_, ?_⟩
  · have hv : oneWord.validate = .ok () := rfl
    have hitem : ∀ wr, sendItem (fun i => i != 0) 8 [List.replicate 8 1, List.replicate 8 2] wr =
        sendEach (fun i => i != 0) 8 [List.replicate 8 2]
          (sendEach (fun i => i != 0) 8 [List.replicate 8 1] wr) := by
      intro wr
      rw [sendItem_eq _ _ (by decide)]
      rfl
    simp only [udpswriter, hv, Bind.bind, Except.bind, twoWords]
    simp only [show oneWord.writeSize.toNat = 8 from rfl, sendItems, hitem]
    rfl
  · intro h
    have := h.numbered 0 (7, List.replicate 8 2) rfl
    revert this
    decide

end Jive5ab.Net.UdpsWriter
