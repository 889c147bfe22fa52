import Mathlib.Data.List.FinRange
import Mathlib.Data.Fintype.Basic
import Jive5ab.Headersearch.Construct
import Jive5ab.Lib.PerKey

/-! # The coalescing splitter

`coalescing_splitter` cuts every frame in `nchunk` pieces and puts those of `naccumulate` frames of
one tag behind each other. A byte of a block is `none` for as long as the split function has not
written it: it is what the pool's memory had before. The split functions themselves are assembler
and generated code, and the queue behind the splitter is never disabled. -/
namespace Jive5ab.Frames
open Lib Headersearch
open Vdif (HighResTime)

/-! ## Headers of split frames -/

/-- `PAYLOADOFFSET_VDIF` -/
def payloadoffset (fmt : FormatType) (ntrack : Nat) : Nat :=
  match fmt with
  | .vdifLegacy | .vdifLegacyComplex => 16
  | .vdif | .vdifComplex => 32
  | .mark5b => 16
  | .vlba => 12 * ntrack % 2 ^ 32
  | _ => 0

structure Header extends HeadersearchType where
  payloadoffset : Nat

def Header.make (fmt : FormatType) (tracks : Nat) (trkbitrate : Samplerate)
    (vdifpayloadsize : Nat) : Except FormatError Header := do
  let hdr ← HeadersearchType.make fmt tracks trkbitrate vdifpayloadsize
  return { hdr with payloadoffset := Frames.payloadoffset fmt tracks }

/-- `valid()` -/
def Header.valid (hdr : Header) : Bool := !(hdr.frameformat == .unknown || hdr.framesize == 0)

/-- `operator<<` of a rational number. -/
def showRate (r : Samplerate) : String :=
  if r.den ≠ 1 then s!"{r.num}/{r.den}" else s!"{r.num}"

/-- The constructor that divides by a complex number, of chunks and of tracks. -/
def Header.div (other : Header) (real imag : Nat) : Except FormatError Header := do
  ezassert (0 < real) "Cannot divide frame into 0 pieces"
  let ntrack := if imag = 0 then other.ntrack / real else imag
  let payloadsize :=
    if other.ntrack = 0 then 2 ^ 32 - 1 else other.payloadsize * ntrack % 2 ^ 32 / other.ntrack
  let state ← DecoderRates.make ntrack other.trackbitrate payloadsize
  ezassert (0 < ntrack ∧ 0 < other.trackbitrate.num ∧ 0 < payloadsize ∧ imag ≤ other.ntrack)
    (s!"cannot divide header by complex ({real},{imag}) with ntrack={ntrack} " ++
      s!"trackbitrate={showRate other.trackbitrate}payloadsize={payloadsize}\n")
  return {
    frameformat := other.frameformat
    ntrack
    trackbitrate := other.trackbitrate
    headersize := 0
    framesize := 0
    payloadsize
    payloadoffset := 0
    state }

/-- The constructor with a factor. It is cast to `int`: one from `2 ^ 31` on divides. -/
def Header.mul (other : Header) (factor : Nat) : Except FormatError Header := do
  ezassert (0 < factor) "Cannot multiply frame by 0"
  let negative := decide (2 ^ 31 ≤ factor)
  let abs := if negative then 2 ^ 32 - factor else factor
  let ntrack := if negative then other.ntrack / abs else other.ntrack
  let payloadsize :=
    if negative then other.payloadsize / abs else other.payloadsize * abs % 2 ^ 32
  let state ← DecoderRates.make ntrack other.trackbitrate payloadsize
  let verb := if negative then "divide" else "multiply"
  ezassert (0 < ntrack ∧ 0 < other.trackbitrate.num ∧ 0 < payloadsize)
    (s!"cannot {verb} header by {abs} with ntrack={ntrack} " ++
      s!"trackbitrate={showRate other.trackbitrate} payloadsize={payloadsize}\n")
  return {
    frameformat := other.frameformat
    ntrack
    trackbitrate := other.trackbitrate
    headersize := 0
    framesize := 0
    payloadsize
    payloadoffset := 0
    state }

/-! ## Ways to split -/

/-- `extractorconfig_type` -/
structure ExtractorConfig where
  bitsperinputword : Nat
  bitsperchannel : Nat
  channels : List (List Nat)
  size : 0 < channels.length ∧ channels.length ≤ 16
  same : ∀ c ∈ channels, c.length = bitsperchannel

/-- `splitproperties_type` -/
inductive SplitProperties
  | split (nchunk : Nat) (size : 0 < nchunk ∧ nchunk ≤ 16)
  | extract (config : ExtractorConfig)

namespace SplitProperties

def naturalAccumulation : Nat := 2 ^ 32 - 1

def nchunk : SplitProperties → Nat
  | split n _ => n
  | extract config => config.channels.length

/-- As many pointers as a split function is called with. -/
theorem nchunk_bounds (sp : SplitProperties) : 0 < sp.nchunk ∧ sp.nchunk ≤ 16 := by
  cases sp with
  | split n size => exact size
  | extract config => exact config.size

def outheader (sp : SplitProperties) (inheader : Header) (naccumulate : Nat) :
    Except FormatError Header := do
  let chunk : Nat × Nat := match sp with
    | split n _ => (n, 0)
    | extract config => (config.channels.length,
        inheader.ntrack * config.bitsperchannel % 2 ^ 32 / config.bitsperinputword)
  let splithdr ← inheader.div chunk.1 chunk.2
  splithdr.mul (if naccumulate = naturalAccumulation then
    inheader.payloadsize / splithdr.payloadsize else naccumulate)

end SplitProperties

/-- `splitterargs`, of which the constructor neither throws nor divides by zero. -/
structure SplitterArgs where
  inputhdr : Header
  splitprops : SplitProperties
  nacc : Nat
  outputhdr : Header
  made : splitprops.outheader inputhdr nacc = .ok outputhdr
  nonzero : 0 < inputhdr.payloadsize * outputhdr.ntrack % 2 ^ 32 / inputhdr.ntrack

namespace SplitterArgs

variable (args : SplitterArgs)

def chLen : Nat := args.inputhdr.payloadsize * args.outputhdr.ntrack % 2 ^ 32 / args.inputhdr.ntrack

def naccumulate : Nat := args.outputhdr.payloadsize / args.chLen

def nchunk : Nat := args.splitprops.nchunk

def outputsize : Nat := args.outputhdr.payloadsize

end SplitterArgs

/-- What a split function writes to each of its chunks, of the payload it is given: "we assume the
frame is split in nchunk equal parts". -/
structure SplitFunction (nchunk chLen : Nat) where
  fn : List UInt8 → Fin nchunk → List UInt8
  size : ∀ payload j, (fn payload j).length = chLen

/-! ## The step -/

/-- `tagged<frame>`, with bytes of some kind. -/
structure TaggedFrame (β : Type) where
  tag : Nat
  frametype : FormatType
  ntrack : Nat
  frametime : HighResTime
  framedata : List β

/-- `tag_state`; a pointer is how far it is into its block. -/
structure SplitState (nchunk : Nat) where
  tagblock : Fin nchunk → List (Option UInt8)
  fcount : Nat
  chunk : Fin nchunk → Nat
  outTs : HighResTime

/-- Bytes written into a block. -/
def poke (block : List (Option UInt8)) (pos : Nat) (bytes : List UInt8) : List (Option UInt8) :=
  overwrite block pos (bytes.map some)

theorem of_ezassert {cond : Prop} [Decidable cond] {what : String} {u : Unit}
    (h : ezassert cond what = .ok u) : cond := by
  unfold ezassert at h
  split at h
  · assumption
  · cases h

theorem Header.mul_ok {other hdr : Header} {factor : Nat} (h : other.mul factor = .ok hdr) :
    0 < factor ∧ 0 < hdr.payloadsize ∧ hdr.frameformat = other.frameformat ∧
      (factor < 2 ^ 31 → hdr.ntrack = other.ntrack ∧
        hdr.payloadsize = other.payloadsize * factor % 2 ^ 32) := by
  unfold Header.mul at h
  obtain ⟨_, hfactor, h⟩ := Checked.bind_eq_ok.mp h
  obtain ⟨state, -, h⟩ := Checked.bind_eq_ok.mp h
  obtain ⟨_, hassert, h⟩ := Checked.bind_eq_ok.mp h
  cases h
  refine ⟨of_ezassert hfactor, (of_ezassert hassert).2.2, rfl, fun hlt => ?_⟩
  have hpositive : decide (2 ^ 31 ≤ factor) = false := decide_eq_false (Nat.not_le.mpr hlt)
  simp only [hpositive]
  exact ⟨rfl, rfl⟩

theorem Header.div_ok {other hdr : Header} {real imag : Nat} (h : other.div real imag = .ok hdr) :
    0 < hdr.payloadsize ∧ hdr.frameformat = other.frameformat ∧
      (other.ntrack ≠ 0 →
        hdr.payloadsize = other.payloadsize * hdr.ntrack % 2 ^ 32 / other.ntrack) := by
  unfold Header.div at h
  obtain ⟨_, -, h⟩ := Checked.bind_eq_ok.mp h
  obtain ⟨state, -, h⟩ := Checked.bind_eq_ok.mp h
  obtain ⟨_, hassert, h⟩ := Checked.bind_eq_ok.mp h
  cases h
  refine ⟨(of_ezassert hassert).2.2.1, rfl, fun hne => ?_⟩
  simp [hne]

theorem SplitProperties.outheader_ok {sp : SplitProperties} {inheader hdr : Header}
    {naccumulate : Nat} (h : sp.outheader inheader naccumulate = .ok hdr) :
    ∃ real imag splithdr, inheader.div real imag = .ok splithdr ∧
      splithdr.mul (if naccumulate = naturalAccumulation then
        inheader.payloadsize / splithdr.payloadsize else naccumulate) = .ok hdr := by
  unfold outheader at h
  obtain ⟨splithdr, hdiv, h⟩ := Checked.bind_eq_ok.mp h
  exact ⟨_, _, splithdr, hdiv, h⟩

namespace SplitterArgs

variable (args : SplitterArgs)

theorem outputsize_pos : 0 < args.outputsize := by
  obtain ⟨real, imag, splithdr, -, hmul⟩ := SplitProperties.outheader_ok args.made
  exact (Header.mul_ok hmul).2.1

/-- The header of one piece; as many of them are to be put behind each other as was asked for, or
as come from one frame. -/
theorem exists_splithdr : ∃ real imag splithdr, args.inputhdr.div real imag = .ok splithdr ∧
    ∀ count, count = (if args.nacc = SplitProperties.naturalAccumulation then
        args.inputhdr.payloadsize / splithdr.payloadsize else args.nacc) →
      splithdr.payloadsize * count < 2 ^ 32 → count < 2 ^ 31 →
      args.naccumulate = count ∧ args.chLen = splithdr.payloadsize ∧
        args.naccumulate * args.chLen = args.outputsize := by
  obtain ⟨real, imag, splithdr, hdiv, hmul⟩ := SplitProperties.outheader_ok args.made
  obtain ⟨hpos, -, hpayload⟩ := Header.div_ok hdiv
  refine ⟨real, imag, splithdr, hdiv, fun count hcount hfit hlt => ?_⟩
  rw [← hcount] at hmul
  obtain ⟨-, -, -, hsizes⟩ := Header.mul_ok hmul
  obtain ⟨hntrack, hsize⟩ := hsizes hlt
  rw [Nat.mod_eq_of_lt hfit] at hsize
  have hne : args.inputhdr.ntrack ≠ 0 := by
    intro hzero
    have hnz := args.nonzero
    rw [hzero, Nat.div_zero] at hnz
    exact absurd hnz (Nat.lt_irrefl 0)
  have hch : args.chLen = splithdr.payloadsize := by
    rw [chLen, hntrack, hpayload hne]
  have hcnt : args.naccumulate = count := by
    rw [naccumulate, hch, hsize, Nat.mul_div_cancel_left _ hpos]
  refine ⟨hcnt, hch, ?_⟩
  rw [hcnt, hch, outputsize, hsize, Nat.mul_comm]

end SplitterArgs

namespace SplitterArgs

variable (args : SplitterArgs)

/-- The pool's blocks are 16 bytes larger. -/
def newState (ts : HighResTime) : SplitState args.nchunk where
  tagblock _ := List.replicate (args.outputsize + 16) none
  fcount := 0
  chunk _ := 0
  outTs := ts

/-- The state of a tag that is seen for the first time is made. -/
def stateFor (st : Option (SplitState args.nchunk)) (tf : TaggedFrame UInt8) :
    SplitState args.nchunk :=
  st.getD (args.newState tf.frametime)

/-- The bytes that are given to the split function. -/
def read (tf : TaggedFrame UInt8) : List UInt8 :=
  slice tf.framedata args.inputhdr.payloadoffset args.inputhdr.payloadsize

variable (split : SplitFunction args.nchunk args.chLen)

/-- A frame of a tag: its state, and the one that is complete. -/
def tagStep (st : Option (SplitState args.nchunk)) (tf : TaggedFrame UInt8) :
    Option (SplitState args.nchunk) × List (SplitState args.nchunk) :=
  let st := args.stateFor st tf
  let st := { st with
    tagblock := fun j => poke (st.tagblock j) (st.chunk j) (split.fn (args.read tf) j)
    fcount := st.fcount + 1 }
  if st.fcount < args.naccumulate then
    (some { st with chunk := fun j => st.chunk j + args.chLen }, [])
  else (none, [st])

/-- `unsigned int` -/
def outputtag (tag : Nat) (j : Fin args.nchunk) : Nat := (tag * args.nchunk + j) % 2 ^ 32

def outgoing (tag : Nat) (st : SplitState args.nchunk) (j : Fin args.nchunk) :
    TaggedFrame (Option UInt8) where
  tag := args.outputtag tag j
  frametype := args.outputhdr.frameformat
  ntrack := args.outputhdr.ntrack
  frametime := st.outTs
  framedata := (st.tagblock j).take args.outputsize

def pushed (tag : Nat) (st : SplitState args.nchunk) : List (TaggedFrame (Option UInt8)) :=
  (List.finRange args.nchunk).map (args.outgoing tag st)

abbrev State := (Nat → Option (SplitState args.nchunk)) × List (TaggedFrame (Option UInt8))

def HoldsPayload (tf : TaggedFrame UInt8) : Prop :=
  args.inputhdr.payloadoffset + args.inputhdr.payloadsize ≤ tf.framedata.length

instance (tf : TaggedFrame UInt8) : Decidable (args.HoldsPayload tf) :=
  inferInstanceAs (Decidable (_ ≤ _))

/-- `none`: the split function reads past the end of the frame, or writes past that of a block. -/
def turn (s : args.State) (tf : TaggedFrame UInt8) : Option args.State :=
  let st := args.stateFor (s.1 tf.tag) tf
  if args.HoldsPayload tf ∧ ∀ j, st.chunk j + args.chLen ≤ (st.tagblock j).length then
    let r := args.tagStep split (s.1 tf.tag) tf
    some (Function.update s.1 tf.tag r.1, s.2 ++ r.2.flatMap (args.pushed tf.tag))
  else none

def expected (tf : TaggedFrame UInt8) : Bool :=
  tf.frametype == args.inputhdr.frameformat &&
    (decide (0 < args.inputhdr.framesize) && tf.framedata.length == args.inputhdr.framesize ||
      tf.framedata.length == args.inputhdr.payloadsize)

/-- The splitter stops at a frame it does not expect. -/
def loop (s : args.State) : List (TaggedFrame UInt8) → Option args.State
  | [] => some s
  | tf :: tfs =>
    if args.expected tf then
      match args.turn split s tf with
      | none => none
      | some s => loop s tfs
    else some s

/-- With real data it waits for a whole second first. -/
def awaited (frames : List (TaggedFrame UInt8)) : List (TaggedFrame UInt8) :=
  if args.inputhdr.valid then frames.dropWhile fun tf => tf.frametime.tvSubsecond ≠ 0 else frames

def coalescingSplitter (frames : List (TaggedFrame UInt8)) :
    Option (List (TaggedFrame (Option UInt8))) :=
  (args.loop split (fun _ => none, []) (args.awaited frames)).map Prod.snd

/-! ## What comes out -/

/-- The frames that are split: up to the first that is not expected. -/
def accepted (frames : List (TaggedFrame UInt8)) : List (TaggedFrame UInt8) :=
  (args.awaited frames).takeWhile args.expected

def ofTag (t : Nat) (frames : List (TaggedFrame UInt8)) : List (TaggedFrame UInt8) :=
  ofKey TaggedFrame.tag t (args.accepted frames)

/-- A frame without its header is all payload. -/
def payload (tf : TaggedFrame UInt8) : List UInt8 :=
  if tf.framedata.length = args.inputhdr.payloadsize then tf.framedata
  else slice tf.framedata args.inputhdr.payloadoffset args.inputhdr.payloadsize

/-- The time of the first frame. -/
def stamp : List (TaggedFrame UInt8) → HighResTime
  | [] => .normalize 0 0
  | tf :: _ => tf.frametime

/-- The frame of one group of `t`, for piece `j`. -/
def outFrame (t : Nat) (j : Fin args.nchunk) (group : List (TaggedFrame UInt8)) :
    TaggedFrame (Option UInt8) where
  tag := t * args.nchunk + j
  frametype := args.outputhdr.frameformat
  ntrack := args.outputhdr.ntrack
  frametime := stamp group
  framedata := (group.flatMap fun tf => split.fn (args.payload tf) j).map some

/-- All that is pushed with a tag, in order; and no two pairs of a tag that has a group and a piece
push with one tag. -/
structure Coalesced (frames : List (TaggedFrame UInt8))
    (out : List (TaggedFrame (Option UInt8))) : Prop where
  groups : ∀ t (j : Fin args.nchunk), (out.filter fun o => o.tag = t * args.nchunk + j) =
    (pieces args.naccumulate (args.ofTag t frames)).map (args.outFrame split t j)
  distinct : ∀ t j t' j', max 1 args.naccumulate ≤ (args.ofTag t frames).length →
    max 1 args.naccumulate ≤ (args.ofTag t' frames).length →
    args.outputtag t j = args.outputtag t' j' → t = t' ∧ j = j'

/-- No frame without its header where the header is looked for; and for a tag with a group, tags in
32 bits, and a group that fills a frame. -/
structure Sound (frames : List (TaggedFrame UInt8)) : Prop where
  holds : ∀ tf ∈ args.accepted frames, args.HoldsPayload tf
  fits : ∀ t, max 1 args.naccumulate ≤ (args.ofTag t frames).length →
    (t + 1) * args.nchunk ≤ 2 ^ 32 ∧ args.naccumulate * args.chLen = args.outputsize

/-! ## The loop -/

theorem loop_eq (s : args.State) (frames : List (TaggedFrame UInt8)) :
    args.loop split s frames = (frames.takeWhile args.expected).foldlM (args.turn split) s := by
  induction frames generalizing s with
  | nil => rfl
  | cons tf tfs ih =>
    rw [loop, List.takeWhile_cons]
    split
    · rw [List.foldlM_cons]
      cases args.turn split s tf with
      | none => rfl
      | some s => exact ih s
    · rfl

variable {args split}

theorem turn_some {s s' : args.State} {tf : TaggedFrame UInt8}
    (h : args.turn split s tf = some s') :
    args.HoldsPayload tf ∧
      s' = (Function.update s.1 tf.tag (args.tagStep split (s.1 tf.tag) tf).1,
        s.2 ++ (args.tagStep split (s.1 tf.tag) tf).2.flatMap (args.pushed tf.tag)) := by
  unfold turn at h
  dsimp only at h
  split at h
  · rename_i hbounds
    exact ⟨hbounds.1, (Option.some.inj h).symm⟩
  · cases h

/-- What each machine puts out is pushed at once. -/
def pushAll (args : SplitterArgs) (out : List (Nat × SplitState args.nchunk)) :
    List (TaggedFrame (Option UInt8)) :=
  out.flatMap fun o => args.pushed o.1 o.2

/-- A run that gets through reads nothing that is not there, and has the tags apart. -/
theorem foldlM_some {frames : List (TaggedFrame UInt8)} {s : args.State}
    (h : frames.foldlM (args.turn split) (fun _ => none, []) = some s) :
    (∀ tf ∈ frames, args.HoldsPayload tf) ∧
      s = ((perKeyRun TaggedFrame.tag (args.tagStep split) none frames).1,
        pushAll args (perKeyRun TaggedFrame.tag (args.tagStep split) none frames).2) := by
  induction frames using List.reverseRecOn generalizing s with
  | nil =>
    cases h
    exact ⟨by simp, rfl⟩
  | append_singleton frames tf ih =>
    rw [List.foldlM_append] at h
    obtain ⟨s₁, hs₁, h⟩ := Option.bind_eq_some_iff.mp h
    obtain ⟨hholds, rfl⟩ := ih hs₁
    rw [List.foldlM_cons] at h
    obtain ⟨s₂, hs₂, h⟩ := Option.bind_eq_some_iff.mp h
    cases h
    obtain ⟨htf, rfl⟩ := turn_some hs₂
    refine ⟨fun g hg => ?_, ?_⟩
    · obtain hg | hg := List.mem_append.mp hg
      · exact hholds g hg
      · rwa [List.mem_singleton.mp hg]
    · rw [perKeyRun_append]
      unfold perKeyStep pushAll
      dsimp only
      rw [List.flatMap_append, List.flatMap_map]

/-! ## One tag -/

theorem naccumulate_mul_le (args : SplitterArgs) :
    args.naccumulate * args.chLen ≤ args.outputsize :=
  Nat.div_mul_le_self _ _

/-- Bytes behind what is written already. -/
theorem poke_append (written : List (Option UInt8)) (bytes : List UInt8) {n : Nat} :
    poke (written ++ List.replicate n none) written.length bytes =
      written ++ bytes.map some ++ List.replicate (n - bytes.length) none := by
  rw [poke, overwrite_append, List.drop_replicate, List.length_map]

variable (args split)

/-- What the frames of a group become, for piece `j`. -/
def collected (group : List (TaggedFrame UInt8)) (j : Fin args.nchunk) : List (Option UInt8) :=
  (group.flatMap fun tf => split.fn (args.read tf) j).map some

/-- The state of a tag of which the frames `group` have come in. -/
def holding (group : List (TaggedFrame UInt8)) : SplitState args.nchunk where
  tagblock j := args.collected split group j ++
    List.replicate (args.outputsize + 16 - group.length * args.chLen) none
  fcount := group.length
  chunk _ := group.length * args.chLen
  outTs := stamp group

/-- The pointers are not moved behind the last frame. -/
def complete (group : List (TaggedFrame UInt8)) : SplitState args.nchunk :=
  { args.holding split group with chunk := fun _ => (group.length - 1) * args.chLen }

def waiting (rest : List (TaggedFrame UInt8)) : Option (SplitState args.nchunk) :=
  if rest.isEmpty then none else some (args.holding split rest)

variable {args split}

theorem length_flatMap_fn (bytes : TaggedFrame UInt8 → List UInt8)
    (group : List (TaggedFrame UInt8)) (j : Fin args.nchunk) :
    (group.flatMap fun tf => split.fn (bytes tf) j).length = group.length * args.chLen := by
  induction group with
  | nil => simp
  | cons tf group ih =>
    rw [List.flatMap_cons, List.length_append, ih, split.size, List.length_cons, Nat.succ_mul,
      Nat.add_comm]

theorem length_collected (group : List (TaggedFrame UInt8)) (j : Fin args.nchunk) :
    (args.collected split group j).length = group.length * args.chLen := by
  rw [collected, List.length_map, length_flatMap_fn]

theorem stateFor_waiting (rest : List (TaggedFrame UInt8)) (tf : TaggedFrame UInt8) :
    args.stateFor (args.waiting split rest) tf =
      { args.holding split rest with outTs := stamp (rest ++ [tf]) } := by
  cases rest with
  | nil => simp [waiting, stateFor, newState, holding, collected, stamp]
  | cons f rest => simp [waiting, stateFor, holding, stamp]

/-- One more frame in a group. -/
theorem poke_holding (rest : List (TaggedFrame UInt8)) (tf : TaggedFrame UInt8)
    (j : Fin args.nchunk) :
    poke ((args.holding split rest).tagblock j) ((args.holding split rest).chunk j)
        (split.fn (args.read tf) j) = (args.holding split (rest ++ [tf])).tagblock j := by
  have hlen : (args.holding split rest).chunk j = (args.collected split rest j).length := by
    rw [length_collected]
    rfl
  rw [hlen]
  unfold holding
  dsimp only
  rw [poke_append, split.size, List.length_append, List.length_singleton, Nat.succ_mul,
    Nat.sub_sub]
  unfold collected
  rw [List.flatMap_append, List.map_append, List.flatMap_cons, List.flatMap_nil, List.append_nil]

theorem tagStep_waiting (rest : List (TaggedFrame UInt8)) (tf : TaggedFrame UInt8) :
    args.tagStep split (args.waiting split rest) tf =
      if rest.length + 1 < args.naccumulate then (args.waiting split (rest ++ [tf]), [])
      else (none, [args.complete split (rest ++ [tf])]) := by
  have hblock : (fun j => poke ((args.holding split rest).tagblock j)
      ((args.holding split rest).chunk j) (split.fn (args.read tf) j)) =
      (args.holding split (rest ++ [tf])).tagblock :=
    funext fun j => poke_holding rest tf j
  have hchunk (j : Fin args.nchunk) : (args.holding split rest).chunk j + args.chLen =
      (args.holding split (rest ++ [tf])).chunk j := by
    simp only [holding, List.length_append, List.length_singleton, Nat.succ_mul]
  unfold tagStep
  rw [stateFor_waiting]
  dsimp only
  rw [hblock]
  by_cases hmore : rest.length + 1 < args.naccumulate
  · rw [if_pos hmore, if_pos (show (args.holding split rest).fcount + 1 < _ from hmore)]
    simp only [hchunk]
    simp [waiting, holding]
  · rw [if_neg hmore, if_neg (show ¬(args.holding split rest).fcount + 1 < _ from hmore)]
    simp [complete, holding]

/-- The groups of a tag that are complete, and the frames that wait for more. -/
theorem machineRun_groups (hn : 0 < args.naccumulate) (fs : List (TaggedFrame UInt8)) :
    ∃ done rest, fs = done ++ rest ∧ args.naccumulate ∣ done.length ∧
      rest.length < args.naccumulate ∧
      machineRun (args.tagStep split) none fs =
        (args.waiting split rest, (pieces args.naccumulate done).map (args.complete split)) := by
  induction fs using List.reverseRecOn with
  | nil => exact ⟨[], [], rfl, Nat.dvd_zero _, hn, by simp [machineRun, waiting, pieces]⟩
  | append_singleton fs tf ih =>
    obtain ⟨done, rest, rfl, hdvd, hlt, hrun⟩ := ih
    rw [machineRun_append, hrun, tagStep_waiting]
    by_cases hmore : rest.length + 1 < args.naccumulate
    · rw [if_pos hmore]
      refine ⟨done, rest ++ [tf], by rw [List.append_assoc], hdvd, by simpa using hmore, ?_⟩
      rw [List.append_nil]
    · have hlen : (rest ++ [tf]).length = args.naccumulate := by
        rw [List.length_append, List.length_singleton]
        omega
      rw [if_neg hmore]
      refine ⟨done ++ (rest ++ [tf]), [], by simp, ?_, hn, ?_⟩
      · rw [List.length_append, hlen]
        exact Nat.dvd_add hdvd (dvd_refl _)
      · rw [pieces_append_piece hn hdvd hlen, List.map_append]
        rfl

theorem machineRun_out (hn : 0 < args.naccumulate) (fs : List (TaggedFrame UInt8)) :
    (machineRun (args.tagStep split) none fs).2 =
      (pieces args.naccumulate fs).map (args.complete split) := by
  obtain ⟨done, rest, rfl, hdvd, hlt, hrun⟩ := @machineRun_groups args split hn fs
  rw [hrun, pieces_append_rest hdvd hlt]

/-! ## A run -/

/-- There is room for one more frame. -/
theorem room {rest : List (TaggedFrame UInt8)}
    (hlt : rest.length < args.naccumulate) (tf : TaggedFrame UInt8) (j : Fin args.nchunk) :
    (args.stateFor (args.waiting split rest) tf).chunk j + args.chLen ≤
      ((args.stateFor (args.waiting split rest) tf).tagblock j).length := by
  have hle : (rest.length + 1) * args.chLen ≤ args.outputsize :=
    Nat.le_trans (Nat.mul_le_mul_right _ hlt) (naccumulate_mul_le args)
  rw [Nat.succ_mul] at hle
  rw [stateFor_waiting]
  simp only [holding, List.length_append, length_collected, List.length_replicate]
  omega

/-- With payloads to read nothing goes wrong. -/
theorem foldlM_of_holds (hn : 0 < args.naccumulate) {frames : List (TaggedFrame UInt8)}
    (h : ∀ tf ∈ frames, args.HoldsPayload tf) :
    frames.foldlM (args.turn split) (fun _ => none, []) =
      some ((perKeyRun TaggedFrame.tag (args.tagStep split) none frames).1,
        pushAll args (perKeyRun TaggedFrame.tag (args.tagStep split) none frames).2) := by
  suffices hsome : ∃ s, frames.foldlM (args.turn split) (fun _ => none, []) = some s by
    obtain ⟨s, hs⟩ := hsome
    rw [hs, (foldlM_some hs).2]
  induction frames using List.reverseRecOn with
  | nil => exact ⟨_, rfl⟩
  | append_singleton frames tf ih =>
    obtain ⟨s, hs⟩ := ih fun g hg => h g (List.mem_append_left _ hg)
    obtain ⟨done, rest, -, -, hlt, hrun⟩ :=
      @machineRun_groups args split hn (ofKey TaggedFrame.tag tf.tag frames)
    have hstate : s.1 tf.tag = args.waiting split rest := by
      rw [(foldlM_some hs).2, (perKeyRun_eq _ _ _ _ _).1, hrun]
    have hbounds : args.HoldsPayload tf ∧
        ∀ j, (args.stateFor (s.1 tf.tag) tf).chunk j + args.chLen ≤
          ((args.stateFor (s.1 tf.tag) tf).tagblock j).length := by
      rw [hstate]
      exact ⟨h tf (by simp), room hlt tf⟩
    obtain ⟨s', hs'⟩ : ∃ s', args.turn split s tf = some s' := by
      unfold turn
      rw [if_pos hbounds]
      exact ⟨_, rfl⟩
    refine ⟨s', ?_⟩
    rw [List.foldlM_append, hs, Option.bind_eq_bind, Option.bind_some, List.foldlM_cons, hs']
    rfl

theorem coalescingSplitter_eq (frames : List (TaggedFrame UInt8)) :
    args.coalescingSplitter split frames =
      ((args.accepted frames).foldlM (args.turn split) (fun _ => none, [])).map Prod.snd := by
  rw [coalescingSplitter, loop_eq]
  rfl

theorem nchunk_pos (args : SplitterArgs) : 0 < args.nchunk := args.splitprops.nchunk_bounds.1

theorem outputtag_eq {t : Nat} (h : (t + 1) * args.nchunk ≤ 2 ^ 32) (j : Fin args.nchunk) :
    args.outputtag t j = t * args.nchunk + j := by
  rw [Nat.succ_mul] at h
  exact Nat.mod_eq_of_lt (by omega)

/-- A tag and a piece, from the output tag. -/
theorem tag_inj {n t t' : Nat} {j j' : Fin n} (h : t * n + j = t' * n + j') : t = t' ∧ j = j' := by
  have hn : 0 < n := j.pos
  have hdiv (t : Nat) (j : Fin n) : (t * n + j) / n = t := by
    rw [Nat.mul_comm, Nat.mul_add_div hn, Nat.div_eq_of_lt j.isLt, Nat.add_zero]
  have ht : t = t' := by rw [← hdiv t j, h, hdiv t' j']
  subst ht
  exact ⟨rfl, Fin.ext (Nat.add_left_cancel h)⟩

/-- What is pushed for a state and has the tag of piece `j` of `t`. -/
theorem filter_pushed {t t' : Nat} (h : (t' + 1) * args.nchunk ≤ 2 ^ 32) (j : Fin args.nchunk)
    (st : SplitState args.nchunk) :
    ((args.pushed t' st).filter fun o => o.tag = t * args.nchunk + j) =
      if t' = t then [args.outgoing t st j] else [] := by
  have htag (i : Fin args.nchunk) : (args.outgoing t' st i).tag = t' * args.nchunk + i :=
    outputtag_eq h i
  unfold pushed
  rw [List.filter_map]
  split
  · rename_i ht
    subst ht
    have hp : ∀ i ∈ List.finRange args.nchunk,
        ((fun o : TaggedFrame (Option UInt8) => decide (o.tag = t' * args.nchunk + j)) ∘
          args.outgoing t' st) i = (i == j) := by
      intro i _
      rw [Function.comp_apply, htag, Bool.eq_iff_iff, decide_eq_true_eq, beq_iff_eq,
        Nat.add_left_cancel_iff, Fin.val_inj]
    rw [List.filter_congr hp, List.filter_beq, List.count_eq_one_of_mem (List.nodup_finRange _)
      (List.mem_finRange j), List.replicate_one, List.map_singleton]
  · rename_i ht
    rw [List.filter_eq_nil_iff.mpr, List.map_nil]
    intro i _
    rw [Function.comp_apply, htag, decide_eq_true_eq]
    exact fun heq => ht (tag_inj heq).1

theorem filter_pushAll {out : List (Nat × SplitState args.nchunk)}
    (h : ∀ o ∈ out, (o.1 + 1) * args.nchunk ≤ 2 ^ 32) (t : Nat) (j : Fin args.nchunk) :
    ((pushAll args out).filter fun o => o.tag = t * args.nchunk + j) =
      ((out.filter fun o => o.1 = t).map Prod.snd).map fun st => args.outgoing t st j := by
  induction out with
  | nil => rfl
  | cons o out ih =>
    obtain ⟨t', st⟩ := o
    have hrest := ih fun o ho => h o (List.mem_cons_of_mem _ ho)
    unfold pushAll at hrest ⊢
    rw [List.flatMap_cons, List.filter_append, hrest, filter_pushed (h (t', st) (by simp))]
    by_cases ht : t' = t
    · simp [ht]
    · simp [ht]

/-- The whole frames, and those without a header if none is skipped. -/
theorem payload_eq_read {tf : TaggedFrame UInt8} (h : args.HoldsPayload tf) :
    args.payload tf = args.read tf := by
  unfold payload read
  unfold HoldsPayload at h
  split
  · rename_i hlen
    have hoffset : args.inputhdr.payloadoffset = 0 := by omega
    rw [hoffset, ← hlen, slice_all]
  · rfl

theorem outgoing_complete {t : Nat} (ht : (t + 1) * args.nchunk ≤ 2 ^ 32)
    (hfill : args.naccumulate * args.chLen = args.outputsize) {group : List (TaggedFrame UInt8)}
    (hlen : group.length = args.naccumulate) (hholds : ∀ tf ∈ group, args.HoldsPayload tf)
    (j : Fin args.nchunk) :
    args.outgoing t (args.complete split group) j = args.outFrame split t j group := by
  have hread : (group.flatMap fun tf => split.fn (args.payload tf) j) =
      group.flatMap fun tf => split.fn (args.read tf) j :=
    List.flatMap_congr fun tf htf => by rw [payload_eq_read (hholds tf htf)]
  have hdata : ((args.complete split group).tagblock j).take args.outputsize =
      args.collected split group j := by
    have hsize : (args.collected split group j).length = args.outputsize := by
      rw [length_collected, hlen, hfill]
    unfold complete holding
    dsimp only
    rw [← hsize, List.take_left]
  unfold outgoing outFrame
  rw [hdata, outputtag_eq ht, hread]
  rfl

theorem mem_accepted {t : Nat} {frames : List (TaggedFrame UInt8)}
    {group : List (TaggedFrame UInt8)}
    (hg : group ∈ pieces args.naccumulate (args.ofTag t frames)) {tf : TaggedFrame UInt8}
    (htf : tf ∈ group) : tf ∈ args.accepted frames := by
  obtain ⟨i, -, rfl⟩ := List.mem_map.mp hg
  exact (List.mem_filter.mp (List.mem_of_mem_drop (List.mem_of_mem_take htf))).1

theorem pieces_ne_nil {fs : List (TaggedFrame UInt8)} (hn : 0 < args.naccumulate) :
    pieces args.naccumulate fs ≠ [] ↔ args.naccumulate ≤ fs.length := by
  rw [← List.length_pos_iff, length_pieces]
  exact Nat.div_pos_iff.trans (and_iff_right hn)

/-- The state of a complete group is what a tag puts out. -/
theorem out_mem (hn : 0 < args.naccumulate) {frames : List (TaggedFrame UInt8)}
    {o : Nat × SplitState args.nchunk}
    (ho : o ∈ (perKeyRun TaggedFrame.tag (args.tagStep split) none (args.accepted frames)).2) :
    ∃ group ∈ pieces args.naccumulate (args.ofTag o.1 frames),
      o.2 = args.complete split group := by
  have hmem := perKeyRun_mem _ _ _ ho
  rw [machineRun_out hn] at hmem
  obtain ⟨group, hgroup, heq⟩ := List.mem_map.mp hmem
  exact ⟨group, hgroup, heq.symm⟩

/-! ## The law -/

theorem coalesced_of_sound {frames : List (TaggedFrame UInt8)} (h : args.Sound frames)
    (hn : 0 < args.naccumulate) :
    ∃ out, args.coalescingSplitter split frames = some out ∧ args.Coalesced split frames out := by
  have hmax : max 1 args.naccumulate = args.naccumulate := Nat.max_eq_right hn
  have htags : ∀ o ∈ (perKeyRun TaggedFrame.tag (args.tagStep split) none (args.accepted frames)).2,
      (o.1 + 1) * args.nchunk ≤ 2 ^ 32 := by
    intro o ho
    obtain ⟨group, hgroup, -⟩ := out_mem hn ho
    have hlen := (pieces_ne_nil hn).mp (List.ne_nil_of_mem hgroup)
    exact (h.fits o.1 (by rwa [hmax])).1
  refine ⟨_, by rw [coalescingSplitter_eq, foldlM_of_holds hn h.holds]; rfl, fun t j => ?_, ?_⟩
  · rw [filter_pushAll htags, (perKeyRun_eq _ _ _ _ _).2, machineRun_out hn, List.map_map]
    refine List.map_congr_left fun group hgroup => ?_
    have hlen := (pieces_ne_nil hn).mp (List.ne_nil_of_mem hgroup)
    obtain ⟨ht, hfill⟩ := h.fits t (by rwa [hmax])
    exact outgoing_complete ht hfill (length_of_mem_pieces hgroup)
      (fun tf htf => h.holds tf (mem_accepted hgroup htf)) j
  · intro t j t' j' ht ht' htag
    rw [outputtag_eq (h.fits t ht).1, outputtag_eq (h.fits t' ht').1] at htag
    exact tag_inj htag

/-- No frame is pushed before a group is complete, whatever is written to it. -/
theorem length_outgoing (t : Nat) (group : List (TaggedFrame UInt8)) (j : Fin args.nchunk)
    (hlen : group.length = args.naccumulate) :
    (args.outgoing t (args.complete split group) j).framedata.length = args.outputsize := by
  have hle := naccumulate_mul_le args
  simp only [outgoing, complete, holding, List.length_take, List.length_append, length_collected,
    List.length_replicate, hlen]
  omega

theorem fits_of_coalesced (hn : 0 < args.naccumulate) {frames : List (TaggedFrame UInt8)}
    {out : List (TaggedFrame (Option UInt8))} (hrun : args.coalescingSplitter split frames = some out)
    (h : args.Coalesced split frames out) {t : Nat}
    (hlen : args.naccumulate ≤ (args.ofTag t frames).length) :
    (t + 1) * args.nchunk ≤ 2 ^ 32 ∧ args.naccumulate * args.chLen = args.outputsize := by
  obtain ⟨group, hgroup⟩ := List.exists_mem_of_ne_nil _ ((pieces_ne_nil hn).mpr hlen)
  have hpos := nchunk_pos args
  obtain ⟨j, hj⟩ : ∃ j : Fin args.nchunk, j.val = args.nchunk - 1 := ⟨⟨args.nchunk - 1, by omega⟩, rfl⟩
  have hmem : args.outFrame split t j group ∈ out := by
    have hin := List.mem_map_of_mem (f := args.outFrame split t j) hgroup
    rw [← h.groups t j] at hin
    exact (List.mem_filter.mp hin).1
  rw [coalescingSplitter_eq] at hrun
  obtain ⟨s, hs, rfl⟩ := Option.map_eq_some_iff.mp hrun
  rw [(foldlM_some hs).2] at hmem
  obtain ⟨o, ho, hpushed⟩ := List.mem_flatMap.mp hmem
  obtain ⟨group', hgroup', hstate⟩ := out_mem hn ho
  obtain ⟨i, -, heq⟩ := List.mem_map.mp hpushed
  rw [hstate] at heq
  constructor
  · have htag : (args.outFrame split t j group).tag < 2 ^ 32 := by
      rw [← heq]
      exact Nat.mod_lt _ (by decide)
    have hval : (args.outFrame split t j group).tag = t * args.nchunk + j := rfl
    rw [Nat.succ_mul]
    omega
  · have hsize := @length_outgoing args split o.1 group' i (length_of_mem_pieces hgroup')
    rw [heq] at hsize
    rw [← hsize, outFrame, List.length_map, length_flatMap_fn, length_of_mem_pieces hgroup]

/-- With pieces larger than a frame every turn pushes. -/
theorem pushAll_ne_nil (hn : args.naccumulate = 0) {frames : List (TaggedFrame UInt8)}
    (hne : frames ≠ []) :
    pushAll args (perKeyRun TaggedFrame.tag (args.tagStep split) none frames).2 ≠ [] := by
  obtain ⟨init, tf, rfl⟩ := (List.eq_nil_or_concat' frames).resolve_left hne
  have hpos := nchunk_pos args
  have hpushed (st : SplitState args.nchunk) : args.pushed tf.tag st ≠ [] := by
    rw [pushed, Ne, List.map_eq_nil_iff, List.finRange_eq_nil_iff]
    omega
  rw [perKeyRun_append]
  unfold perKeyStep tagStep pushAll
  simp [hn, hpushed]

theorem eq_nil_of_coalesced (hn : args.naccumulate = 0) {frames : List (TaggedFrame UInt8)}
    {out : List (TaggedFrame (Option UInt8))} (h : args.Coalesced split frames out) : out = [] := by
  have hpos := nchunk_pos args
  rw [List.eq_nil_iff_forall_not_mem]
  intro o ho
  have hgroups := h.groups (o.tag / args.nchunk) ⟨o.tag % args.nchunk, Nat.mod_lt _ hpos⟩
  rw [hn] at hgroups
  have hnil : (out.filter fun p =>
      p.tag = o.tag / args.nchunk * args.nchunk + o.tag % args.nchunk) = [] := by
    rw [hgroups]
    simp [pieces]
  have hself := List.filter_eq_nil_iff.mp hnil o ho
  rw [Nat.div_add_mod'] at hself
  simp at hself

theorem holds_of_run {frames : List (TaggedFrame UInt8)} {out : List (TaggedFrame (Option UInt8))}
    (h : args.coalescingSplitter split frames = some out) :
    (∀ tf ∈ args.accepted frames, args.HoldsPayload tf) ∧
      out = pushAll args
        (perKeyRun TaggedFrame.tag (args.tagStep split) none (args.accepted frames)).2 := by
  rw [coalescingSplitter_eq] at h
  obtain ⟨s, hs, rfl⟩ := Option.map_eq_some_iff.mp h
  obtain ⟨hholds, rfl⟩ := foldlM_some hs
  exact ⟨hholds, rfl⟩

/-- A frame of `outputsize` bytes is never full of pieces that are larger. -/
theorem coalesced_zero (hn : args.naccumulate = 0) {frames : List (TaggedFrame UInt8)}
    (hnil : args.accepted frames = []) :
    ∃ out, args.coalescingSplitter split frames = some out ∧ args.Coalesced split frames out := by
  have hof (t : Nat) : args.ofTag t frames = [] := by
    unfold ofTag
    rw [hnil]
    rfl
  refine ⟨[], by rw [coalescingSplitter_eq, hnil]; rfl, fun t j => ?_, ?_⟩
  · rw [hof]
    simp [pieces]
  · intro t j t' j' ht
    rw [hof, hn] at ht
    simp at ht

end SplitterArgs

/-! ## Frames without a header -/

/-- 8 tracks of 8 megabits per second, in VDIF frames of 8 bytes. -/
def vdifHeader : Header :=
  ⟨⟨.vdif, 8, .ofNat 8000000, 32, 40, 8, ⟨.ofNat 1000000, ⟨1, 1000000⟩⟩⟩, 32⟩

theorem vdifHeader_made : Header.make .vdif 8 (.ofNat 8000000) 8 = .ok vdifHeader := by
  rfl

/-- The split function `do_nothing`, once a frame. -/
def noopArgs : SplitterArgs where
  inputhdr := vdifHeader
  splitprops := .split 1 (by decide)
  nacc := SplitProperties.naturalAccumulation
  outputhdr := ⟨⟨.vdif, 8, .ofNat 8000000, 0, 0, 8, ⟨.ofNat 1000000, ⟨1, 1000000⟩⟩⟩, 0⟩
  made := by rfl
  nonzero := by decide

def doNothing : SplitFunction noopArgs.nchunk noopArgs.chLen where
  fn payload _ := (payload ++ List.replicate 8 0).take 8
  size payload j := by simp; rfl

/-- A frame of which the header was taken off. -/
def strippedFrame : TaggedFrame UInt8 where
  tag := 0
  frametype := .vdif
  ntrack := 8
  frametime := ⟨0, 0, Vdif.zero_lt_second⟩
  framedata := [1, 2, 3, 4, 5, 6, 7, 8]

end Jive5ab.Frames
