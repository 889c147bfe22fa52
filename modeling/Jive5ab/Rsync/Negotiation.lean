import Jive5ab.Lib.RoundRobin
import Jive5ab.Rsync.KvMap

/-! # Which files to send

The initiator sends the names of its files; the other end answers with the ones
it has or with the ones it needs, whichever are fewer. What is left to send is
striped over the mount points. The connection keeps every byte and their order;
`UDT` moves no more at a time than an `int` can say. -/
namespace Jive5ab.Rsync
open Std Lib Lib.Split Lib.RoundRobin

/-! ## Files -/

/-- A path that system calls take. -/
structure Path where
  name : Text
  nonempty : name ≠ []
  nulFree : nul ∉ name
  short : name.length ≤ 4096

structure ChunkLocation where
  mountpoint : Text
  relativePath : Path

/-- The files of a scan on the mount points of a host, in the order in which they are found. -/
abbrev GetChunklist := Text → List ChunkLocation

def ChunkLocation.name (f : ChunkLocation) : Text := f.relativePath.name

def names (fl : List ChunkLocation) : List Text := fl.map ChunkLocation.name

/-! ## The connection -/

inductive Protocol
  | tcp
  | udt
  deriving DecidableEq

/-- The bytes that the loops of `read` and `write` move when asked for `n`. A size
that is no positive `int` is no size to `UDT`, and the loop ends. -/
def Protocol.moved (protocol : Protocol) (n : Nat) : Nat :=
  match protocol with
  | .tcp => n
  | .udt => if n % 2 ^ 32 < 2 ^ 31 then n % 2 ^ 32 else 0

def Protocol.write (protocol : Protocol) (buf : Text) : Text := buf.take (protocol.moved buf.length)

/-- Less than was asked for is an error. -/
def Protocol.read (protocol : Protocol) (n : Nat) (stream : Text) : Option Text :=
  if min (protocol.moved n) stream.length = n then some (stream.take n) else none

/-! ## The messages -/

def requestHeader (scan payload : Text) : KvMap :=
  ((∅ : KvMap).set (text "requestRsync") scan).set (text "payloadSize") (decimal (size payload))

def replyHeader (listType pay : Text) : KvMap :=
  ((∅ : KvMap).set (text "listType") listType).set (text "rsyncReplySz") (decimal (size pay))

def payload (fl : List ChunkLocation) : Text := terminated nul (names fl)

def rsyncRequest (protocol : Protocol) (scan : Text) (fl : List ChunkLocation) : Text :=
  protocol.write (requestHeader scan (payload fl)).toBinary ++ protocol.write (payload fl)

/-- The files that the server has of those it was asked about, or those it has
not: the type of the list, and the list. -/
def answer (localSet : TreeSet Text) (remoteLst : List Text) : Text × List Text :=
  let haves := remoteLst.filter localSet.contains
  let haveNots := remoteLst.filter fun f => !localSet.contains f
  if haves.length < haveNots.length then (text "have", haves) else (text "need", haveNots)

/-- The server's side, for a request that is one for rsync. -/
def rsyncReply (protocol : Protocol) (getChunklist : GetChunklist) (request : Text) : Option Text := do
  let (idValues, stream) ← readKvMap request
  let rq ← idValues[text "requestRsync"]?
  let ps ← idValues[text "payloadSize"]?
  if idValues[text "fileName"]?.isSome || idValues[text "fileSize"]?.isSome then none
  else
    let sz ← scanU32 ps
    let flist ← protocol.read sz stream
    let remoteLst := split nul true flist
    let localSet := TreeSet.ofList (names (getChunklist rq))
    let (listType, list) := answer localSet remoteLst
    let pay := terminated nul list
    return protocol.write (replyHeader listType pay).toBinary ++ protocol.write pay

/-- `not_inset_fn` for the files that the other end has, `inset_fn` for those it needs. -/
def needcopy (listType : Text) (remoteSet : TreeSet Text) (f : Text) : Bool :=
  if listType = text "have" then !remoteSet.contains f else remoteSet.contains f

/-- The initiator's side after the reply: the files in the order they are queued. -/
def filesToSend (protocol : Protocol) (fl : List ChunkLocation) (reply : Text) :
    Option (List ChunkLocation) := do
  let (hdr, stream) ← readKvMap reply
  let replySz ← hdr[text "rsyncReplySz"]?
  let listType ← hdr[text "listType"]?
  if listType = text "have" ∨ listType = text "need" then
    let sz ← scanU32 replySz
    let flist ← protocol.read sz stream
    let remoteSet := TreeSet.ofList (split nul true flist)
    let newfl := fl.filter fun f => needcopy listType remoteSet f.name
    return takeTurns (group ChunkLocation.mountpoint newfl)
  else none

/-- The files that are queued; `none` is an exception at one of the ends. -/
def rsyncinitiator (protocol : Protocol) (scanname : Path) (initiator server : GetChunklist) :
    Option (List ChunkLocation) :=
  let fl := initiator scanname.name
  if fl.isEmpty then some []
  else do
    let reply ← rsyncReply protocol server (rsyncRequest protocol scanname.name fl)
    filesToSend protocol fl reply

/-! ## Over the connection -/

theorem Protocol.moved_of_lt (protocol : Protocol) {n : Nat} (h : n < 2 ^ 31) :
    protocol.moved n = n := by
  cases protocol with
  | tcp => rfl
  | udt =>
    have hmod : n % 2 ^ 32 = n := Nat.mod_eq_of_lt (by omega)
    rw [moved, hmod, if_pos h]

theorem Protocol.write_of_lt (protocol : Protocol) {buf : Text} (h : buf.length < 2 ^ 31) :
    protocol.write buf = buf := by
  rw [write, protocol.moved_of_lt h, List.take_length]

theorem size_lt (s : Text) : size s < 2 ^ 64 := Nat.mod_lt _ (by decide)

theorem length_decimal_size (s : Text) : (decimal (size s)).length ≤ 20 := by
  have hlt := size_lt s
  rw [decimal, List.length_map, Nat.length_toDigits_le_iff (by decide) (by decide)]
  omega

theorem nul_notMem_decimal (n : Nat) : nul ∉ decimal n := by
  intro h
  exact absurd (isDigit_of_mem_decimal h) (by decide)

theorem scanU32_size (s : Text) : scanU32 (decimal (size s)) = some (s.length % 2 ^ 32) := by
  rw [scanU32_decimal (size_lt s), size, Nat.mod_mod_of_dvd _ (by decide)]

section
variable {kv : KvMap} {k₁ v₁ k₂ v₂ : Text} (hkv : kv.toList = [(k₁, v₁), (k₂, v₂)])
include hkv

/-- Both headers have two pairs. -/
theorem wellFormed_pairs (h₁ : WellFormed k₁ v₁) (h₂ : WellFormed k₂ v₂) : kv.WellFormed := by
  rw [KvMap.WellFormed, hkv, List.forall_mem_cons, List.forall_mem_singleton]
  exact ⟨h₁, h₂⟩

theorem length_toBinary_pairs :
    kv.toBinary.length = k₁.length + v₁.length + k₂.length + v₂.length + 7 := by
  have hsep : separator.length = 2 := rfl
  simp only [KvMap.toBinary, KvMap.lines, hkv, List.map_cons, List.map_nil, List.length_append,
    length_terminated, List.sum_cons, List.sum_nil, hsep, List.length_singleton]
  omega

/-- A header of few bytes arrives whole, and leaves the rest of the message. -/
theorem readKvMap_write (h₁ : WellFormed k₁ v₁) (h₂ : WellFormed k₂ v₂)
    (hshort : k₁.length + v₁.length + k₂.length + v₂.length ≤ 5000) (protocol : Protocol)
    (stream : Text) :
    readKvMap (protocol.write kv.toBinary ++ stream) = some (.ofList kv.toList, stream) := by
  have hsome : kv.isEmpty = false := by rw [← TreeMap.isEmpty_toList, hkv]; rfl
  have hlen := length_toBinary_pairs hkv
  rw [protocol.write_of_lt (by omega), readKvMap_toBinary hsome (wellFormed_pairs hkv h₁ h₂).proper]

end

theorem requestHeader_toList (scan payload : Text) : (requestHeader scan payload).toList =
    [(text "payloadSize", decimal (size payload)), (text "requestRsync", scan)] := rfl

theorem replyHeader_toList (listType pay : Text) : (replyHeader listType pay).toList =
    [(text "listType", listType), (text "rsyncReplySz", decimal (size pay))] := rfl

/-! ## The server -/

/-- The part of the request that the server reads, as names. -/
def received (fl : List ChunkLocation) : List Text :=
  split nul true ((payload fl).take ((payload fl).length % 2 ^ 32))

/-- A size that arrives as it was sent, apart from its higher bits. -/
def Protocol.Carries (protocol : Protocol) (n : Nat) : Prop := protocol = .udt → n % 2 ^ 32 < 2 ^ 31

theorem Protocol.carries_tcp (n : Nat) : Protocol.tcp.Carries n := fun h => nomatch h

theorem Protocol.Carries.moved_eq {protocol : Protocol} {n : Nat} (h : protocol.Carries n) :
    protocol.moved (n % 2 ^ 32) = n % 2 ^ 32 ∧ n % 2 ^ 32 ≤ protocol.moved n := by
  cases protocol with
  | tcp => exact ⟨rfl, Nat.mod_le _ _⟩
  | udt =>
    have hlt := h rfl
    refine ⟨moved_of_lt .udt hlt, Nat.le_of_eq ?_⟩
    rw [moved, if_pos hlt]

theorem read_write {protocol : Protocol} {buf : Text} (h : protocol.Carries buf.length) :
    protocol.read (buf.length % 2 ^ 32) (protocol.write buf) =
      some (buf.take (buf.length % 2 ^ 32)) := by
  obtain ⟨hread, hwrite⟩ := h.moved_eq
  have hle := Nat.mod_le buf.length (2 ^ 32)
  have hlen : (protocol.write buf).length = min (protocol.moved buf.length) buf.length :=
    List.length_take
  rw [Protocol.read, hread, hlen, if_pos (by omega), Protocol.write, List.take_take,
    Nat.min_eq_left hwrite]

theorem read_write_of_not_carries {protocol : Protocol} {buf : Text}
    (h : ¬protocol.Carries buf.length) :
    protocol.read (buf.length % 2 ^ 32) (protocol.write buf) = none := by
  cases protocol with
  | tcp => exact absurd (Protocol.carries_tcp _) h
  | udt =>
    have hge : ¬buf.length % 2 ^ 32 < 2 ^ 31 := fun hlt => h fun _ => hlt
    rw [Protocol.read, Protocol.moved, Nat.mod_mod, if_neg hge, if_neg (by omega)]

/-- What the server makes of the bytes that it read. -/
def replyTo (protocol : Protocol) (chunks : List ChunkLocation) (flist : Text) : Text :=
  let a := answer (TreeSet.ofList (names chunks)) (split nul true flist)
  protocol.write (replyHeader a.1 (terminated nul a.2)).toBinary ++
    protocol.write (terminated nul a.2)

theorem rsyncReply_rsyncRequest (protocol : Protocol) (scan : Path) (fl : List ChunkLocation)
    (server : GetChunklist) :
    rsyncReply protocol server (rsyncRequest protocol scan.name fl) =
      (protocol.read ((payload fl).length % 2 ^ 32) (protocol.write (payload fl))).map
        (replyTo protocol (server scan.name)) := by
  have hshort : (text "payloadSize").length + (decimal (size (payload fl))).length +
      (text "requestRsync").length + scan.name.length ≤ 5000 := by
    have hdecimal := length_decimal_size (payload fl)
    have hscan := scan.short
    have hkeys : (text "payloadSize").length = 11 ∧ (text "requestRsync").length = 12 := ⟨rfl, rfl⟩
    omega
  have hread := readKvMap_write (requestHeader_toList scan.name (payload fl))
    ⟨by decide, by decide, nul_notMem_decimal _⟩ ⟨by decide, by decide, scan.nulFree⟩ hshort
    protocol (protocol.write (payload fl))
  have hps : (requestHeader scan.name (payload fl))[text "payloadSize"]? =
    some (decimal (size (payload fl))) := rfl
  have hrq : (requestHeader scan.name (payload fl))[text "requestRsync"]? = some scan.name := rfl
  have hname : (requestHeader scan.name (payload fl))[text "fileName"]? = none := rfl
  have hsize : (requestHeader scan.name (payload fl))[text "fileSize"]? = none := rfl
  simp only [rsyncReply, rsyncRequest, hread, OrdMap.lookup_ofList_toList, hps, hrq, hname, hsize,
    scanU32_size, Option.bind_eq_bind, Option.bind_some, Option.isSome_none, Bool.or_self,
    Bool.false_eq_true, if_false, Option.pure_def]
  cases protocol.read ((payload fl).length % 2 ^ 32) (protocol.write (payload fl)) <;> rfl

/-! ## The answer -/

theorem answer_sublist (localSet : TreeSet Text) (remoteLst : List Text) :
    (answer localSet remoteLst).2.Sublist remoteLst := by
  rw [answer]
  split
  · exact List.filter_sublist
  · exact List.filter_sublist

/-- Something is left out of an answer that is not empty, so it is shorter than
the question was. -/
theorem length_answer_le (localSet : TreeSet Text) (flist : Text) :
    (terminated nul (answer localSet (split nul true flist)).2).length ≤ flist.length := by
  have hsplit := length_terminated_split nul true flist
  have hne : ∀ f ∈ split nul true flist, f ≠ [] := fun f hf => (mem_split hf).2 rfl
  rw [answer]
  split
  · rename_i hlt
    have hle := length_terminated_filter_le nul (p := localSet.contains) hne
      (List.ne_nil_of_length_pos (Nat.zero_lt_of_lt hlt))
    exact Nat.le_of_succ_le (Nat.le_of_succ_le_succ (Nat.le_trans hle hsplit))
  · rename_i hge
    by_cases hnil : (split nul true flist).filter (fun f => !localSet.contains f) = []
    · rw [hnil]
      exact Nat.zero_le _
    · have hpos := List.length_pos_of_ne_nil hnil
      have hsome : (split nul true flist).filter (fun f => !!localSet.contains f) ≠ [] := by
        simp only [Bool.not_not]
        exact List.ne_nil_of_length_pos (Nat.lt_of_lt_of_le hpos (Nat.le_of_not_lt hge))
      have hle := length_terminated_filter_le nul hne hsome
      exact Nat.le_of_succ_le (Nat.le_of_succ_le_succ (Nat.le_trans hle hsplit))

/-! ## The initiator -/

theorem answer_type (localSet : TreeSet Text) (remoteLst : List Text) :
    (answer localSet remoteLst).1 = text "have" ∨ (answer localSet remoteLst).1 = text "need" := by
  rw [answer]
  split
  · exact .inl rfl
  · exact .inr rfl

/-- The files that are sent after an answer. -/
def newfl (a : Text × List Text) (fl : List ChunkLocation) : List ChunkLocation :=
  fl.filter fun f => needcopy a.1 (TreeSet.ofList a.2) f.name

theorem filesToSend_replyTo {protocol : Protocol} {flist : Text} (hlt : flist.length < 2 ^ 32)
    (hcarries : protocol.Carries flist.length) (fl chunks : List ChunkLocation) :
    filesToSend protocol fl (replyTo protocol chunks flist) =
      some (takeTurns (group ChunkLocation.mountpoint
        (newfl (answer (TreeSet.ofList (names chunks)) (split nul true flist)) fl))) := by
  rw [replyTo]
  set a := answer (TreeSet.ofList (names chunks)) (split nul true flist) with ha
  have htype : a.1 = text "have" ∨ a.1 = text "need" := answer_type _ _
  have hle : (terminated nul a.2).length ≤ flist.length := length_answer_le _ _
  have hpiece : ∀ f ∈ a.2, nul ∉ f ∧ (true → f ≠ []) := fun f hf =>
    mem_split ((answer_sublist _ _).subset hf)
  have hnul : nul ∉ a.1 := by
    rcases htype with h | h <;> rw [h] <;> decide
  have hshort : (text "listType").length + a.1.length + (text "rsyncReplySz").length +
      (decimal (size (terminated nul a.2))).length ≤ 5000 := by
    have hdecimal := length_decimal_size (terminated nul a.2)
    have htext : a.1.length = 4 := by rcases htype with h | h <;> rw [h] <;> rfl
    have hkeys : (text "listType").length = 8 ∧ (text "rsyncReplySz").length = 12 := ⟨rfl, rfl⟩
    omega
  have hread := readKvMap_write (replyHeader_toList a.1 (terminated nul a.2))
    ⟨by decide, by decide, hnul⟩ ⟨by decide, by decide, nul_notMem_decimal _⟩ hshort protocol
    (protocol.write (terminated nul a.2))
  have hsz : (replyHeader a.1 (terminated nul a.2))[text "rsyncReplySz"]? =
    some (decimal (size (terminated nul a.2))) := rfl
  have htp : (replyHeader a.1 (terminated nul a.2))[text "listType"]? = some a.1 := rfl
  have hmod : (terminated nul a.2).length % 2 ^ 32 = (terminated nul a.2).length :=
    Nat.mod_eq_of_lt (by omega)
  have hpay : protocol.read ((terminated nul a.2).length % 2 ^ 32)
      (protocol.write (terminated nul a.2)) = some (terminated nul a.2) := by
    have hcarry : protocol.Carries (terminated nul a.2).length := by
      intro hudt
      have hflist := hcarries hudt
      omega
    rw [read_write hcarry, hmod, List.take_length]
  have hlist : split nul true (terminated nul a.2) = a.2 :=
    split_terminated_self (fun f hf => (hpiece f hf).2 rfl) fun f hf => (hpiece f hf).1
  simp only [filesToSend, hread, OrdMap.lookup_ofList_toList, hsz, htp, htype, if_true, scanU32_size,
    hpay, hlist, Option.bind_eq_bind, Option.bind_some, Option.pure_def]
  rfl

/-- What is queued when the request's size arrives. -/
theorem rsyncinitiator_eq {protocol : Protocol} {scanname : Path} {initiator : GetChunklist}
    (hcarries : protocol.Carries (payload (initiator scanname.name)).length) (server : GetChunklist) :
    ∃ q, rsyncinitiator protocol scanname initiator server = some q ∧
      q.Perm (newfl (answer (TreeSet.ofList (names (server scanname.name)))
        (received (initiator scanname.name))) (initiator scanname.name)) := by
  rw [rsyncinitiator]
  split
  · rename_i hempty
    rw [List.isEmpty_iff.mp hempty]
    exact ⟨[], rfl, .refl _⟩
  · have hlen : ((payload (initiator scanname.name)).take
        ((payload (initiator scanname.name)).length % 2 ^ 32)).length =
          (payload (initiator scanname.name)).length % 2 ^ 32 := by
      rw [List.length_take, Nat.min_eq_left (Nat.mod_le _ _)]
    have hlt := Nat.mod_lt (payload (initiator scanname.name)).length (by decide : 0 < 2 ^ 32)
    rw [rsyncReply_rsyncRequest, read_write hcarries, Option.map_some, Option.bind_eq_bind,
      Option.bind_some, filesToSend_replyTo (by omega) ?_]
    · exact ⟨_, rfl, takeTurns_group_perm _ _⟩
    · rw [hlen]
      intro hudt
      rw [Nat.mod_mod]
      exact hcarries hudt

theorem rsyncinitiator_of_not_carries {protocol : Protocol} {scanname : Path} {initiator : GetChunklist}
    (hcarries : ¬protocol.Carries (payload (initiator scanname.name)).length)
    (server : GetChunklist) : rsyncinitiator protocol scanname initiator server = none := by
  rw [rsyncinitiator, if_neg]
  · rw [rsyncReply_rsyncRequest, read_write_of_not_carries hcarries]
    rfl
  · intro hempty
    rw [List.isEmpty_iff.mp hempty] at hcarries
    exact hcarries fun _ => by decide

/-! ## Which files are sent -/

/-- The files that the server has not. -/
def missing (fl chunks : List ChunkLocation) : List ChunkLocation :=
  fl.filter fun f => !(names chunks).contains f.name

/-- The names that decide how to send are among those that the server has read: the
ones it has if they are fewer there, the ones it has not otherwise. -/
def Negotiable (fl chunks : List ChunkLocation) : Prop :=
  if (received fl).countP (· ∈ names chunks) < (received fl).countP (· ∉ names chunks) then
    ∀ f ∈ fl, f.name ∈ names chunks → f.name ∈ received fl
  else ∀ f ∈ fl, f.name ∉ names chunks → f.name ∈ received fl

theorem filter_perm_iff {α : Type} {p q : α → Bool} {l : List α} :
    (l.filter p).Perm (l.filter q) ↔ ∀ a ∈ l, p a = q a := by
  constructor
  · intro h a ha
    have hmem : a ∈ l.filter p ↔ a ∈ l.filter q := h.mem_iff
    rw [List.mem_filter, List.mem_filter, and_iff_right ha, and_iff_right ha] at hmem
    exact Bool.eq_iff_iff.mpr hmem
  · intro h
    rw [List.filter_congr h]

theorem answer_ofList (present remoteLst : List Text) :
    answer (TreeSet.ofList present) remoteLst =
      if remoteLst.countP (· ∈ present) < remoteLst.countP (· ∉ present) then
        (text "have", remoteLst.filter (· ∈ present))
      else (text "need", remoteLst.filter (· ∉ present)) := by
  have hlocal : (TreeSet.ofList present).contains = fun f : Text => decide (f ∈ present) := by
    funext f
    rw [TreeSet.contains_ofList, List.contains_eq_mem]
  simp only [answer, hlocal, ← decide_not, ← List.countP_eq_length_filter]

theorem needcopy_have (list : List Text) (f : Text) :
    needcopy (text "have") (TreeSet.ofList list) f = !decide (f ∈ list) := by
  rw [needcopy, if_pos rfl, TreeSet.contains_ofList, List.contains_eq_mem]

theorem needcopy_need (list : List Text) (f : Text) :
    needcopy (text "need") (TreeSet.ofList list) f = decide (f ∈ list) := by
  rw [needcopy, if_neg (by decide), TreeSet.contains_ofList, List.contains_eq_mem]

theorem newfl_perm_missing_iff (fl chunks : List ChunkLocation) :
    (newfl (answer (TreeSet.ofList (names chunks)) (received fl)) fl).Perm (missing fl chunks) ↔
      Negotiable fl chunks := by
  rw [newfl, missing, filter_perm_iff, Negotiable, answer_ofList]
  split
  · refine forall_congr' fun f => forall_congr' fun _ => ?_
    rw [needcopy_have, List.contains_eq_mem]
    by_cases hf : f.name ∈ names chunks <;> simp [hf]
  · refine forall_congr' fun f => forall_congr' fun _ => ?_
    rw [needcopy_need, List.contains_eq_mem]
    by_cases hf : f.name ∈ names chunks <;> simp [hf]

theorem nul_notMem_name {fl : List ChunkLocation} {f : Text} (h : f ∈ names fl) : f ≠ [] ∧ nul ∉ f := by
  obtain ⟨c, -, rfl⟩ := List.mem_map.mp h
  exact ⟨c.relativePath.nonempty, c.relativePath.nulFree⟩

theorem received_eq_names {fl : List ChunkLocation} (h : (payload fl).length < 2 ^ 32) :
    received fl = names fl := by
  rw [received, Nat.mod_eq_of_lt h, List.take_length, payload]
  exact split_terminated_self (fun f hf => (nul_notMem_name hf).1) fun f hf => (nul_notMem_name hf).2

theorem negotiable_of_lt {fl : List ChunkLocation} (h : (payload fl).length < 2 ^ 32)
    (chunks : List ChunkLocation) : Negotiable fl chunks := by
  have hname : ∀ f ∈ fl, f.name ∈ received fl := by
    intro f hf
    rw [received_eq_names h]
    exact List.mem_map_of_mem hf
  rw [Negotiable]
  split
  · exact fun f hf _ => hname f hf
  · exact fun f hf _ => hname f hf

/-- A payload of that many bytes arrives whole. -/
def Protocol.limit : Protocol → Nat
  | .tcp => 2 ^ 32
  | .udt => 2 ^ 31

theorem Protocol.carries_of_lt {protocol : Protocol} {n : Nat} (h : n < protocol.limit) :
    protocol.Carries n ∧ n < 2 ^ 32 := by
  cases protocol with
  | tcp => exact ⟨carries_tcp n, h⟩
  | udt =>
    have hlt : n < 2 ^ 31 := h
    exact ⟨fun _ => Nat.lt_of_le_of_lt (Nat.mod_le _ _) hlt, by omega⟩

/-- The files that are queued are those that the server has not, each as often as it
was found, exactly when the names that decide get through to the server. -/
theorem rsyncinitiator_queues_missing_iff (protocol : Protocol) (scanname : Path)
    (initiator server : GetChunklist) :
    (∃ q, rsyncinitiator protocol scanname initiator server = some q ∧
      q.Perm (missing (initiator scanname.name) (server scanname.name))) ↔
      (payload (initiator scanname.name)).length < protocol.limit ∨
        protocol.Carries (payload (initiator scanname.name)).length ∧
          Negotiable (initiator scanname.name) (server scanname.name) := by
  by_cases hcarries : protocol.Carries (payload (initiator scanname.name)).length
  · obtain ⟨q, hq, hperm⟩ := rsyncinitiator_eq hcarries server
    have hiff : q.Perm (missing (initiator scanname.name) (server scanname.name)) ↔
        Negotiable (initiator scanname.name) (server scanname.name) :=
      (hperm.congr_left _).trans (newfl_perm_missing_iff _ _)
    constructor
    · rintro ⟨q', hq', hmissing⟩
      rw [hq, Option.some.injEq] at hq'
      exact .inr ⟨hcarries, hiff.mp (hq' ▸ hmissing)⟩
    · rintro (hlt | ⟨-, hnegotiable⟩)
      · exact ⟨q, hq, hiff.mpr (negotiable_of_lt (Protocol.carries_of_lt hlt).2 _)⟩
      · exact ⟨q, hq, hiff.mpr hnegotiable⟩
  · constructor
    · rintro ⟨q, hq, -⟩
      rw [rsyncinitiator_of_not_carries hcarries] at hq
      cases hq
    · rintro (hlt | ⟨hcarry, -⟩)
      · exact absurd (Protocol.carries_of_lt hlt).1 hcarries
      · exact absurd hcarry hcarries

/-! ## A request of more than 2³² bytes -/

/-- The eight digits at the end of a file's name. -/
def sequenceNumber (n : Nat) : Text := (List.range 8).reverse.map fun i => (48 + n / 10 ^ i % 10).toUInt8

def longName : Text := List.replicate 240 97

theorem length_longName : longName.length = 240 := List.length_replicate

theorem nul_notMem_longName : nul ∉ longName := fun h => absurd (List.eq_of_mem_replicate h) (by decide)

/-- A long name of a scan. -/
def longScan : Path where
  name := longName
  nonempty := List.ne_nil_of_length_pos (by rw [length_longName]; decide)
  nulFree := nul_notMem_longName
  short := by rw [length_longName]; decide

theorem nul_notMem_sequenceNumber (n : Nat) : nul ∉ sequenceNumber n := by
  intro h
  obtain ⟨i, -, hi⟩ := List.mem_map.mp h
  have hzero := congrArg UInt8.toNat hi
  rw [UInt8.toNat_ofNat', nul, UInt8.toNat_zero] at hzero
  omega

/-- `SCAN/SCAN.xxxxxxxx` -/
def recordingName (n : Nat) : Text := longName ++ 47 :: (longName ++ 46 :: sequenceNumber n)

theorem length_recordingName (n : Nat) : (recordingName n).length = 490 := by
  have hdigits : (sequenceNumber n).length = 8 := rfl
  rw [recordingName, List.length_append, List.length_cons, List.length_append, List.length_cons,
    length_longName, hdigits]

def recording (n : Nat) : ChunkLocation where
  mountpoint := text "/mnt/disk1"
  relativePath :=
    { name := recordingName n
      nonempty := List.ne_nil_of_length_pos (by rw [length_recordingName]; decide)
      nulFree := by
        rw [recordingName, List.mem_append, List.mem_cons, List.mem_append, List.mem_cons]
        have hslash : nul ≠ 47 := by decide
        have hdot : nul ≠ 46 := by decide
        simp only [nul_notMem_longName, nul_notMem_sequenceNumber, hslash, hdot, or_self,
          not_false_eq_true]
      short := by rw [length_recordingName]; decide }

def recordings (count : Nat) : List ChunkLocation := (List.range count).map recording

theorem length_payload_recordings (count : Nat) : (payload (recordings count)).length = count * 491 := by
  have hlen : (names (recordings count)).map (fun p => p.length + 1) = List.replicate count 491 := by
    rw [names, recordings, List.map_map, List.map_map, List.eq_replicate_iff]
    refine ⟨by rw [List.length_map, List.length_range], fun b hb => ?_⟩
    obtain ⟨n, -, rfl⟩ := List.mem_map.mp hb
    exact congrArg (· + 1) (length_recordingName n)
  rw [payload, length_terminated, hlen, List.sum_replicate_nat]

/-- What is read of so many names may be a part of the first one. -/
theorem received_recordings {count : Nat} (h : (count + 1) * 491 % 2 ^ 32 = 212) :
    received (recordings (count + 1)) = [List.replicate 212 97] := by
  obtain ⟨rest, hrest⟩ : ∃ rest, payload (recordings (count + 1)) = List.replicate 212 97 ++ rest := by
    rw [payload, recordings, List.range_succ_eq_map, List.map_cons, names, List.map_cons,
      terminated_cons]
    have hname : (recording 0).name = List.replicate 212 97 ++
        (List.replicate 28 97 ++ 47 :: (longName ++ 46 :: sequenceNumber 0)) := by
      rw [← List.append_assoc, List.replicate_append_replicate]
      rfl
    rw [hname, List.append_assoc]
    exact ⟨_, rfl⟩
  have hnul : nul ∉ List.replicate 212 (97 : UInt8) := fun h =>
    absurd (List.eq_of_mem_replicate h) (by decide)
  rw [received, length_payload_recordings, h, hrest, List.take_left' List.length_replicate,
    split_last true hnul, kept_of_ne_nil (by simp)]

theorem not_negotiable_recordings {count : Nat} (h : (count + 1) * 491 % 2 ^ 32 = 212) :
    ¬Negotiable (recordings (count + 1)) (recordings 1) := by
  have hpresent : names (recordings 1) = [recordingName 0] := rfl
  have hne : List.replicate 212 97 ≠ recordingName 0 := by
    intro heq
    have hlen := congrArg List.length heq
    rw [List.length_replicate, length_recordingName] at hlen
    omega
  have hfirst : recording 0 ∈ recordings (count + 1) :=
    List.mem_map_of_mem (List.mem_range.mpr (Nat.succ_pos count))
  have hfewer : [List.replicate 212 97].countP (· ∈ [recordingName 0]) <
      [List.replicate 212 97].countP (· ∉ [recordingName 0]) := by
    rw [List.countP_cons_of_neg (by simpa only [List.mem_singleton, decide_eq_true_eq] using hne),
      List.countP_cons_of_pos (by simpa only [List.mem_singleton, decide_eq_true_eq] using hne)]
    exact Nat.zero_lt_one
  rw [Negotiable, received_recordings h, hpresent, if_pos hfewer]
  intro hall
  have hread := hall (recording 0) hfirst List.mem_cons_self
  exact hne (List.mem_singleton.mp hread).symm

theorem sends_present {count : Nat} (h : (count + 1) * 491 % 2 ^ 32 = 212) :
    ¬∃ q, rsyncinitiator .tcp longScan (fun _ => recordings (count + 1)) (fun _ => recordings 1) =
        some q ∧ q.Perm (missing (recordings (count + 1)) (recordings 1)) := by
  rintro ⟨q, hq, hmissing⟩
  obtain ⟨q', hq', hperm⟩ := @rsyncinitiator_eq .tcp longScan (fun _ => recordings (count + 1))
    (Protocol.carries_tcp _) fun _ => recordings 1
  obtain rfl : q = q' := Option.some.inj (hq.symm.trans hq')
  exact not_negotiable_recordings h ((newfl_perm_missing_iff _ _).mp (hperm.symm.trans hmissing))

/-- The server has the first file, and it is sent all the same. -/
theorem rsyncinitiator_sends_present :
    ¬∃ q, rsyncinitiator .tcp longScan (fun _ => recordings (8747387 + 1)) (fun _ => recordings 1) =
        some q ∧ q.Perm (missing (recordings (8747387 + 1)) (recordings 1)) :=
  sends_present (by decide)

end Jive5ab.Rsync
