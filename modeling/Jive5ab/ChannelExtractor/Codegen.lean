import Jive5ab.ChannelExtractor.Config
import Mathlib.Data.Nat.Bitwise

/-! # The code of a channel extractor

`channelstate_type` and `generate_dynamic_channel_extractor` of `dynamic_channel_extractor.cc`. The
C code that is generated is kept as data, with what it does to the outputs. -/
namespace Jive5ab.ChannelExtractor

/-! ## The bits of one channel -/

/-- `bitkey_type`, which is sorted by the byte that is read, that is written and the shift. -/
structure BitKey where
  srcbyte : Nat
  dstbyte : Nat
  shift : Int
  deriving DecidableEq

/-- `ltbitkey` -/
def BitKey.lt (l r : BitKey) : Bool :=
  if l.srcbyte ≠ r.srcbyte then l.srcbyte < r.srcbyte
  else if l.dstbyte ≠ r.dstbyte then l.dstbyte < r.dstbyte
  else l.shift < r.shift

/-- `bitset_type`, with the mask of each key. -/
abbrev Bitset := List (BitKey × UInt8)

/-- The mask is added to that of the key, or the key put where it belongs. -/
def addKey (key : BitKey) (mask : UInt8) : Bitset → Bitset
  | [] => [(key, mask)]
  | e :: bitset =>
    if e.1 = key then (key, e.2 ||| mask) :: bitset
    else if key.lt e.1 then (key, mask) :: e :: bitset
    else e :: addKey key mask bitset

/-- `channelstate_type` -/
structure ChannelState where
  bitset : Bitset
  bits : List UInt32

namespace ChannelState

def addbit (state : ChannelState) (bitnum : UInt32) : ChannelState :=
  let bitidx : UInt32 := .ofNat state.bits.length
  let dstbit := bitidx % 8
  let dstbyte := bitidx / 8
  let srcbit := bitnum % 8
  let srcbyte := bitnum / 8
  { bitset := addKey ⟨srcbyte.toNat, dstbyte.toNat, srcbit.toNat - dstbit.toNat⟩
      (.ofNat (2 ^ srcbit.toNat)) state.bitset
    bits := state.bits ++ [bitnum] }

def complete (state : ChannelState) : Bool := 0 < state.bits.length && state.bits.length % 8 = 0

end ChannelState

/-! ## The code -/

/-- `((<in>[srcbyte] & mask) >> shift)` -/
structure Term where
  srcbyte : Nat
  mask : UInt8
  shift : Int
  deriving DecidableEq

/-- `<out>[dstbyte] = <term> | <term> ...;` -/
structure Line where
  dstbyte : Nat
  terms : List Term
  deriving DecidableEq

/-- In `linemap`, a term behind those of its byte. -/
def addTerm (dstbyte : Nat) (term : Term) : List Line → List Line
  | [] => [⟨dstbyte, [term]⟩]
  | line :: lines =>
    if line.dstbyte = dstbyte then ⟨dstbyte, line.terms ++ [term]⟩ :: lines
    else if dstbyte < line.dstbyte then ⟨dstbyte, [term]⟩ :: line :: lines
    else line :: addTerm dstbyte term lines

def linesOf (bitset : Bitset) : List Line :=
  bitset.foldl (fun lines e => addTerm e.1.dstbyte ⟨e.1.srcbyte, e.2, e.1.shift⟩ lines) []

def ChannelState.getlines (state : ChannelState) : Except String (List Line) :=
  if state.complete then .ok (linesOf state.bitset)
  else .error "Cannot generate code for incomplete solution"

/-- One turn of the loop that is generated, and how far it moves the pointers. -/
structure Code where
  inputincrement : Nat
  outputincrement : Nat
  lines : List (List Line)
  deriving DecidableEq

/-- The bits of one more word of the input. -/
def addWord (config : Config) (bitoffset : UInt32) (states : List ChannelState) :
    List ChannelState :=
  config.channels.zipWith
    (fun channel state => channel.foldl (fun state bit => state.addbit (bit + bitoffset)) state)
    states

/-- Words are added until the first channel has whole bytes. -/
def addWords (config : Config) :
    Nat → List ChannelState → UInt32 → Option (List ChannelState × UInt32)
  | 0, _, _ => none
  | fuel + 1, states, bitoffset =>
    if states.head?.any ChannelState.complete = false ∨ (0 < bitoffset ∧ bitoffset % 8 ≠ 0) then
      addWords config fuel (addWord config bitoffset states) (bitoffset + config.bitsperinputword)
    else some (states, bitoffset)

/-- Without the text around the code. -/
def generate (fuel : Nat) (config : Config) : Option (Except String Code) :=
  (addWords config fuel (config.channels.map fun _ => ⟨[], []⟩) 0).map fun (states, bitoffset) =>
    (states.mapM ChannelState.getlines).map fun lines =>
      { inputincrement := (bitoffset / 8).toNat
        outputincrement := (states.head?.getD ⟨[], []⟩).bits.length / 8 % 2 ^ 32
        lines := lines }

/-! ## What it does -/

abbrev Bytes := Nat → UInt8

/-- The value of a term, as an `int`, with the input pointer at `input`. -/
def Term.eval (src : Bytes) (input : Nat) (term : Term) : Nat :=
  let isolate := (src (input + term.srcbyte)).toNat &&& term.mask.toNat
  if term.shift < 0 then isolate <<< (-term.shift).toNat else isolate >>> term.shift.toNat

def Line.eval (src : Bytes) (input : Nat) (line : Line) : UInt8 :=
  .ofNat (line.terms.foldl (fun value term => value ||| term.eval src input) 0)

/-- The lines of one channel, with its pointer at `output`. -/
def store (src : Bytes) (input output : Nat) (lines : List Line) (dst : Bytes) : Bytes :=
  lines.foldl
    (fun dst line => Function.update dst (output + line.dstbyte) (line.eval src input)) dst

/-- Every channel has an output of its own. -/
def Code.body (code : Code) (src : Bytes) (input output : Nat) (dsts : Nat → Bytes) :
    Nat → Bytes :=
  fun channel => match code.lines[channel]? with
    | some lines => store src input output lines (dsts channel)
    | none => dsts channel

/-- `while( (input + <inputincrement>) <= endptr )` -/
def Code.loop (code : Code) (src : Bytes) (len : Nat) :
    Nat → Nat → Nat → (Nat → Bytes) → Option (Nat → Bytes)
  | 0, _, _, _ => none
  | fuel + 1, input, output, dsts =>
    if input + code.inputincrement ≤ len then
      code.loop src len fuel (input + code.inputincrement) (output + code.outputincrement)
        (code.body src input output dsts)
    else some dsts

def Code.run (code : Code) (fuel : Nat) (src : Bytes) (len : Nat) (dsts : Nat → Bytes) :
    Option (Nat → Bytes) :=
  code.loop src len fuel 0 0 dsts

/-! ## What is stated -/

/-- Bits are counted from the low bit of each byte. -/
def bitAt (bytes : Bytes) (i : Nat) : Bool := (bytes (i / 8)).toNat.testBit (i % 8)

/-- Of every block whose length is a multiple of `step`, all samples are extracted, and nothing is
written behind them. -/
def Code.Extracts (code : Code) (config : Config) (step : Nat) : Prop :=
  ∀ src dsts len samples, step ∣ len → samples * config.bitsperinputword.toNat = len * 8 →
    ∃ fuel out, code.run fuel src len dsts = some out ∧
      (∀ c channel, config.channels[c]? = some channel → ∀ sample < samples, ∀ b bit,
        channel[b]? = some bit →
          bitAt (out c) (sample * config.bitsperchannel + b) =
            bitAt src (sample * config.bitsperinputword.toNat + bit.toNat)) ∧
      ∀ c i, config.channels.length ≤ c ∨ samples * config.bitsperchannel ≤ i →
        bitAt (out c) i = bitAt (dsts c) i

end Jive5ab.ChannelExtractor
