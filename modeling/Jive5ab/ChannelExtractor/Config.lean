import Jive5ab.Stringutil.UIntRange

/-! # The configuration of a channel extractor

`parse_dynamic_channel_extractor` of `dynamic_channel_extractor.cc`, and `find_enclosed` of
`stringutil.h`. A configuration reads `<bits of a word> > [<bits>][<bits>]...`. -/
namespace Jive5ab.ChannelExtractor
open Lib.Split Stringutil

/-! ## Enclosed texts -/

/-- What stands before the first `c` that is not escaped, and what begins with it. -/
def scanTo (c : Char) : Option Char → List Char → List Char × List Char
  | _, [] => ([], [])
  | prev, x :: xs =>
    if x = c ∧ prev ≠ some '\\' then ([], x :: xs)
    else (x :: (scanTo c (some x) xs).1, (scanTo c (some x) xs).2)

theorem length_scanTo_le (c : Char) (prev : Option Char) (s : List Char) :
    (scanTo c prev s).2.length ≤ s.length := by
  induction s generalizing prev with
  | nil => exact Nat.le_refl _
  | cons x xs ih =>
    rw [scanTo]
    split
    · exact Nat.le_refl _
    · exact Nat.le_trans (ih (some x)) (Nat.le_succ _)

/-- Nothing where an opening character is not closed. -/
def findEnclosed (opening closing : Char) (s : List Char) : Option (List (List Char)) :=
  match _h : (scanTo opening none s).2 with
  | [] => some []
  | first :: inner =>
    match _k : (scanTo closing (some first) inner).2 with
    | [] => none
    | _ :: rest =>
      (findEnclosed opening closing rest).map ((scanTo closing (some first) inner).1 :: ·)
  termination_by s.length
  decreasing_by
    have hopen := length_scanTo_le opening none s
    have hclose := length_scanTo_le closing (some first) inner
    rw [_h, List.length_cons] at hopen
    rw [_k, List.length_cons] at hclose
    omega

/-! ## The configuration -/

/-- `extractorconfig_type` -/
structure Config where
  bitsperinputword : UInt32
  bitsperchannel : Nat
  channels : List (List UInt32)
  deriving DecidableEq

/-- The bits of one channel, after those before it. -/
def parseChannel (fuel : Nat) (width : UInt32) (channels : List (List UInt32))
    (channeldef : List Char) : Option (Except String (List UInt32)) :=
  if channeldef.isEmpty then some (.error "the channeldefinition is empty?!")
  else (parseUIntRange fuel channeldef ',').map fun channelbits =>
    let bitsperchannel := (channels.head?.getD channelbits).length
    if channelbits.isEmpty then
      .error ("the channeldefinition '" ++ .ofList channeldef ++ "' is empty?")
    else if channelbits.length ≠ bitsperchannel then
      .error ("the number of bits per channel varies. channel '" ++
        .ofList (channeldef.take 1) ++ "' is not " ++ toString bitsperchannel)
    else match channelbits.findIdx? fun bit => ¬bit < width with
      | some bit => .error ("bit #" ++ toString bit ++ " of channel " ++
          toString (channels.length + 1) ++ " is out of range, max " ++ toString width)
      | none => .ok channelbits

def parseChannels (fuel : Nat) (width : UInt32) :
    List (List UInt32) → List (List Char) → Option (Except String (List (List UInt32)))
  | channels, [] => some (.ok channels)
  | channels, channeldef :: channeldefs =>
    match parseChannel fuel width channels channeldef with
    | none => none
    | some (.error e) => some (.error e)
    | some (.ok channelbits) => parseChannels fuel width (channels ++ [channelbits]) channeldefs

/-- What is behind the `>`. -/
def parseChannelDefs (fuel : Nat) (width : UInt32) (s : List Char) :
    Option (Except String Config) :=
  match findEnclosed '[' ']' s with
  | none => some (.error "unbalanced_open_close")
  | some channeldefs =>
    if channeldefs.isEmpty then some (.error "you did not configure any channels")
    else if 16 < channeldefs.length then
      some (.error ("only 16 output channels can be defined, you configured " ++
        toString channeldefs.length))
    else (parseChannels fuel width [] channeldefs).map fun parsed =>
      parsed.map fun channels => ⟨width, (channels.head?.getD []).length, channels⟩

/-- A number whose range does not end takes all of the fuel. -/
def parseDynamicChannelExtractor (fuel : Nat) (configstr : List Char) :
    Option (Except String Config) :=
  let config := configstr.filter fun c => ¬isSpace c
  if config.isEmpty then some (.error "")
  else match split '>' false config with
    | [word, channeldefs] =>
      match if word.isEmpty then none else scanUnsigned word with
      | none => some (.error ("'" ++ .ofList word ++ "' appears not to be a number"))
      | some (width, _) =>
        if ¬(0 < width ∧ width % 8 = 0) then
          some (.error (toString width ++ " is not a non-zero integer multiple of 8 bits"))
        else parseChannelDefs fuel width channeldefs
    | _ => some (.error "syntax error in splitstring, no/too many '>' found")

/-! ## What is accepted -/

/-- One to sixteen channels, of as many bits each, out of a word of whole bytes. -/
structure Config.WellFormed (config : Config) : Prop where
  width_pos : 0 < config.bitsperinputword.toNat
  width_mod : config.bitsperinputword.toNat % 8 = 0
  channels_ne : config.channels ≠ []
  channels_le : config.channels.length ≤ 16
  bits_pos : 0 < config.bitsperchannel
  length_eq : ∀ channel ∈ config.channels, channel.length = config.bitsperchannel
  bits_lt : ∀ channel ∈ config.channels, ∀ bit ∈ channel, bit < config.bitsperinputword

theorem parseChannel_ok {fuel : Nat} {width : UInt32} {channels : List (List UInt32)}
    {channeldef : List Char} {bits : List UInt32}
    (h : parseChannel fuel width channels channeldef = some (.ok bits)) :
    bits ≠ [] ∧ bits.length = (channels.head?.getD bits).length ∧ ∀ bit ∈ bits, bit < width := by
  unfold parseChannel at h
  split at h
  · cases h
  obtain ⟨parsed, -, hparsed⟩ := Option.map_eq_some_iff.mp h
  dsimp only at hparsed
  split at hparsed
  · cases hparsed
  split at hparsed
  · cases hparsed
  rename_i hne hlen
  split at hparsed
  · cases hparsed
  · rename_i hnone
    obtain rfl := Except.ok.inj hparsed
    refine ⟨fun hnil => hne (by rw [hnil]; rfl), not_not.mp hlen, fun bit hbit => ?_⟩
    have hlt := List.findIdx?_eq_none_iff.mp hnone bit hbit
    simpa using hlt

/-- The channels that are there fit each other, and those that are added fit them. -/
structure Channels (width : UInt32) (channels : List (List UInt32)) : Prop where
  ne_nil : ∀ channel ∈ channels, channel ≠ []
  length_eq : ∀ channel ∈ channels, channel.length = (channels.head?.getD []).length
  bits_lt : ∀ channel ∈ channels, ∀ bit ∈ channel, bit < width

theorem Channels.add {width : UInt32} {channels : List (List UInt32)} {bits : List UInt32}
    (h : Channels width channels) (hne : bits ≠ [])
    (hlen : bits.length = (channels.head?.getD bits).length) (hlt : ∀ bit ∈ bits, bit < width) :
    Channels width (channels ++ [bits]) := by
  have hhead : ((channels ++ [bits]).head?.getD []).length = bits.length := by
    rw [hlen]
    cases channels with
    | nil => rfl
    | cons channel channels => rfl
  refine ⟨fun c hc => ?_, fun c hc => ?_, fun c hc => ?_⟩
  · rcases List.mem_append.mp hc with hc | hc
    · exact h.ne_nil c hc
    · rwa [List.mem_singleton.mp hc]
  · rw [hhead]
    rcases List.mem_append.mp hc with hc | hc
    · rw [h.length_eq c hc, hlen]
      cases channels with
      | nil => cases hc
      | cons channel channels => rfl
    · rw [List.mem_singleton.mp hc]
  · rcases List.mem_append.mp hc with hc | hc
    · exact h.bits_lt c hc
    · rwa [List.mem_singleton.mp hc]

theorem parseChannels_ok {fuel : Nat} {width : UInt32} {channels parsed : List (List UInt32)}
    {channeldefs : List (List Char)} (h : Channels width channels)
    (hparse : parseChannels fuel width channels channeldefs = some (.ok parsed)) :
    Channels width parsed ∧ parsed.length = channels.length + channeldefs.length := by
  induction channeldefs generalizing channels with
  | nil =>
    obtain rfl := Except.ok.inj (Option.some.inj hparse)
    exact ⟨h, rfl⟩
  | cons channeldef channeldefs ih =>
    rw [parseChannels] at hparse
    split at hparse
    · cases hparse
    · cases hparse
    · rename_i bits hbits
      obtain ⟨hne, hlen, hlt⟩ := parseChannel_ok hbits
      obtain ⟨hfit, hcount⟩ := ih (h.add hne hlen hlt) hparse
      refine ⟨hfit, ?_⟩
      rw [hcount, List.length_append, List.length_singleton, List.length_cons]
      omega

theorem wellFormed_of_channels {fuel : Nat} {width : UInt32} {s : List Char} {config : Config}
    (hpos : 0 < width) (hmod : width % 8 = 0)
    (h : parseChannelDefs fuel width s = some (.ok config)) : config.WellFormed := by
  unfold parseChannelDefs at h
  split at h
  · cases h
  rename_i channeldefs _
  split at h
  · cases h
  split at h
  · cases h
  rename_i hsome hmany
  obtain ⟨parsed, hparsed, hmap⟩ := Option.map_eq_some_iff.mp h
  cases parsed with
  | error e => cases hmap
  | ok channels =>
    obtain rfl := Except.ok.inj hmap
    have hnone : Channels width [] := ⟨nofun, nofun, nofun⟩
    obtain ⟨hfit, hcount⟩ := parseChannels_ok hnone hparsed
    have hlen : 0 < channels.length := by
      have hdefs : channeldefs ≠ [] := fun hnil => hsome (by rw [hnil]; rfl)
      have := List.length_pos_of_ne_nil hdefs
      rw [hcount]
      omega
    obtain ⟨channel, rest, rfl⟩ := List.exists_cons_of_ne_nil (List.ne_nil_of_length_pos hlen)
    have hbits := List.length_pos_of_ne_nil (hfit.ne_nil channel List.mem_cons_self)
    refine ⟨hpos, ?_, List.cons_ne_nil _ _, ?_, hbits, hfit.length_eq, hfit.bits_lt⟩
    · have := congrArg UInt32.toNat hmod
      rwa [UInt32.toNat_mod] at this
    · rw [hcount, List.length_nil, Nat.zero_add]
      exact Nat.not_lt.mp hmany

theorem wellFormed_of_parse {fuel : Nat} {configstr : List Char} {config : Config}
    (h : parseDynamicChannelExtractor fuel configstr = some (.ok config)) : config.WellFormed := by
  unfold parseDynamicChannelExtractor at h
  dsimp only at h
  split at h
  · cases h
  split at h
  · split at h
    · cases h
    · split at h
      · cases h
      · rename_i hwidth
        obtain ⟨hpos, hmod⟩ := not_not.mp hwidth
        exact wellFormed_of_channels hpos hmod h
  · cases h

end Jive5ab.ChannelExtractor
