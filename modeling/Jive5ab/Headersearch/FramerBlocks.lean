import Jive5ab.Headersearch.FramerReads

/-! # Blocks of a stream

In whatever blocks a stream comes, the framer goes on where it may. Where that is, is left open
here. -/
namespace Jive5ab.Headersearch
open Lib

namespace Framer

variable {f : Framer} {stream : List Crc.Byte}

theorem cache_cached (s : State) (cached : List Crc.Byte) : (s.cache cached).cached = cached := rfl

theorem cache_halted (s : State) (cached : List Crc.Byte) : (s.cache cached).halted = s.halted := rfl

theorem cache_frames (s : State) (cached : List Crc.Byte) : (s.cache cached).frames = s.frames := rfl

theorem deliver_cache (s : State) (frame cached : List Crc.Byte) :
    (f.deliver s frame).cache cached = f.deliver (s.cache cached) frame := by
  unfold deliver State.cache
  dsimp only
  split
  · rfl
  · rfl

theorem deliver_cached (s : State) (frame : List Crc.Byte) :
    (f.deliver s frame).cached = s.cached := by
  unfold deliver
  split
  · rfl
  · rfl

/-! ## Where the framer may go on -/

variable (f stream) in
/-- From a position on, with what has been taken before, `G` holds of all that the framer does,
and `R` of what it has taken in the end. -/
structure Resumes (G : Nat → State → Prop) (R : State → Prop) : Prop where
  advance : ∀ {p a s}, G p s → p ≤ a → (∀ o, p ≤ o → o < a + f.offset → ¬f.Syncs stream o) → G a s
  tooClose : ∀ {p o s}, G p s → f.Next stream p o → o < p + f.offset →
    G (o + f.size) s ∧ ∀ B, p ≤ B → B ≤ p + f.syncwordArea → G B s
  refused : ∀ {q x s}, G q s → f.Syncs stream (q + f.offset) →
    f.refuses (stream.drop q) = .ok true → q ≤ x → (f.Behind → q + f.syncwordArea ≤ x) →
    x ≤ q + f.framesize → G x s
  unsynced : ∀ {p x s}, G p s → ¬f.Behind → f.refuses (stream.drop p) = .ok true → p ≤ x →
    x ≤ p + f.framesize → G x s
  accepted : ∀ {q s}, G q s → s.halted = none → f.Syncs stream (q + f.offset) →
    q + f.framesize ≤ stream.length → f.refuses (stream.drop q) = .ok false →
    ((f.deliver s (slice stream q f.framesize)).halted = none →
        G (q + f.framesize) (f.deliver s (slice stream q f.framesize))) ∧
      ((f.deliver s (slice stream q f.framesize)).halted ≠ none →
        R (f.deliver s (slice stream q f.framesize)))
  stop : ∀ {p s}, G p s → stream.length < p + f.framesize → R s

/-! ## Where the framer is -/

/-- A block of the stream. -/
structure BlockAt (stream : List Crc.Byte) (B : Nat) (b : List Crc.Byte) : Prop where
  eq : slice stream B b.length = b
  fits : B + b.length ≤ stream.length
  short : b.length < 2 ^ 31 - 1

theorem BlockAt.slice_eq {B : Nat} {b : List Crc.Byte} (hb : BlockAt stream B b) {i n : Nat}
    (h : i + n ≤ b.length) : slice b i n = slice stream (B + i) n := by
  conv_lhs => rw [← hb.eq]
  exact slice_slice stream h

theorem BlockAt.drop_eq {B : Nat} {b : List Crc.Byte} (hb : BlockAt stream B b) {i : Nat}
    (h : i ≤ b.length) : b.drop i = slice stream (B + i) (b.length - i) := by
  rw [← hb.slice_eq (by omega), slice, List.take_of_length_le (by rw [List.length_drop])]

variable (f stream) in
/-- In a block of `len` bytes at `B`, with the bytes from `a` on cached, the framer may go on at
`a`. -/
structure Live (G : Nat → State → Prop) (B len a ptr : Nat) (s : State) : Prop where
  ptr_le : ptr ≤ len
  le : a ≤ B + ptr
  cached : s.cached = slice stream a (B + ptr - a)
  short : B + ptr - a < f.framesize
  synced : f.syncwordArea ≤ B + ptr - a → f.Syncs stream (a + f.offset)
  edge : B + ptr - a < f.syncwordArea → a = B + ptr ∨ ptr = 0 ∨ ptr = len
  resumes : G a (s.cache [])
  running : s.halted = none

/-- After an exception nothing more is taken. -/
def Done (R : State → Prop) (s : State) : Prop := s.halted ≠ none ∧ R (s.cache [])

variable {G : Nat → State → Prop} {R : State → Prop} {s : State} {B len a ptr : Nat}
  {b : List Crc.Byte}

/-- Nothing is cached. -/
theorem live_empty (hs : Sized f) (hptr : ptr ≤ len) (hcached : s.cached = [])
    (hresumes : G (B + ptr) (s.cache [])) (hrunning : s.halted = none) :
    f.Live stream G B len (B + ptr) ptr s := by
  have hzero : B + ptr - (B + ptr) = 0 := Nat.sub_self _
  refine ⟨hptr, Nat.le_refl _, ?_, ?_, fun harea => ?_, fun _ => .inl rfl, hresumes, hrunning⟩
  · rw [hzero, hcached, slice_zero]
  · rw [hzero]
    exact hs.pos
  · rw [hzero] at harea
    have hsize : f.size = 0 := by
      unfold syncwordArea at harea
      omega
    intro t ht
    omega

/-- A frame is taken. -/
theorem deliver_spec (hs : Sized f) (hres : f.Resumes stream G R) {q : Nat} (hptr : ptr ≤ len)
    (hpos : B + ptr = q + f.framesize) (hrunning : s.halted = none)
    (hsyncs : f.Syncs stream (q + f.offset)) (hcomplete : q + f.framesize ≤ stream.length)
    (haccepted : f.refuses (stream.drop q) = .ok false) (hresumes : G q (s.cache [])) :
    Done R (f.deliver (s.cache []) (slice stream q f.framesize)) ∨
      f.Live stream G B len (B + ptr) ptr
        (f.deliver (s.cache []) (slice stream q f.framesize)) := by
  have htaken := hres.accepted hresumes hrunning hsyncs hcomplete haccepted
  have hempty : (f.deliver (s.cache []) (slice stream q f.framesize)).cache [] =
      f.deliver (s.cache []) (slice stream q f.framesize) := deliver_cache _ _ []
  by_cases hhalted : (f.deliver (s.cache []) (slice stream q f.framesize)).halted = none
  · refine .inr (live_empty hs hptr (deliver_cached _ _) ?_ hhalted)
    rw [hempty, hpos]
    exact htaken.1 hhalted
  · exact .inl ⟨hhalted, hempty ▸ htaken.2 hhalted⟩

/-! ## The remainder of a block -/

theorem nextSyncword_spec (hb : BlockAt stream B b) (hptr : ptr < b.length) :
    (f.nextSyncword b ptr = .ok none ∧ 0 < f.size ∧
      ∀ o, B + ptr ≤ o → o + f.size ≤ B + b.length → ¬f.Syncs stream o) ∨
    ∃ o, f.nextSyncword b ptr = .ok (some (o - B)) ∧ o + f.size ≤ B + b.length ∧
      f.Next stream (B + ptr) o := by
  have hfits := hb.fits
  have hshort := hb.short
  unfold nextSyncword noSyncword
  rcases Nat.eq_zero_or_pos f.size with hzero | hsize
  · have hocc : Occurs f.word f.size (bytesAt stream) (B + ptr) := fun t ht => by omega
    refine .inr ⟨B + ptr, ?_, by omega, firstFrom_self (by omega) hocc⟩
    rw [hzero, Nat.add_sub_cancel_left]
    rfl
  · have hplain : (f.size == 0) = false := beq_eq_false_iff_ne.mpr hsize.ne'
    rw [hplain, if_neg Bool.false_ne_true, hb.drop_eq hptr.le]
    have hfit : B + ptr + (b.length - ptr) ≤ stream.length := by omega
    rcases search_slice hsize hfit (by omega) with ⟨hsearch, hnone⟩ | ⟨o, hsearch, hle, hnext⟩
    · rw [hsearch]
      exact .inl ⟨rfl, hsize, fun o hge hfit => hnone o hge (by omega)⟩
    · have hge := hnext.ge
      refine .inr ⟨o, ?_, by omega, hnext⟩
      rw [hsearch]
      change Except.ok (some (ptr + (o - (B + ptr)))) = _
      rw [show ptr + (o - (B + ptr)) = o - B by omega]

/-- Without a sync word what may be the begin of one is kept. -/
theorem mainStep_none (hs : Sized f) (hb : BlockAt stream B b)
    (hptr : ptr < b.length)
    (hnone : ∀ o, B + ptr ≤ o → o + f.size ≤ B + b.length → ¬f.Syncs stream o) {nkeep : Nat}
    (hkeep : nkeep = min (f.syncwordArea - 1) (b.length - ptr)) :
    f.mainStep b s ptr = (s.cache (slice stream (B + b.length - nkeep) nkeep), b.length) := by
  have hshort := hb.short
  have hlt := hs.area_lt
  unfold mainStep
  rcases nextSyncword_spec hb hptr with ⟨hnext, -, -⟩ | ⟨o, -, hle, hfirst⟩
  · rw [hnext]
    dsimp only
    rw [Nat.mod_eq_of_lt (by omega), ← hkeep, hb.slice_eq (by omega),
      ← Nat.add_sub_assoc (by omega)]
  · exact absurd hfirst.occurs (hnone o hfirst.ge hle)

theorem mainStep_tooClose (hb : BlockAt stream B b) (hptr : ptr < b.length) {o : Nat}
    (hfirst : f.Next stream (B + ptr) o) (hle : o + f.size ≤ B + b.length)
    (hlt : o < B + ptr + f.offset) : f.mainStep b s ptr = (s, o - B + f.size) := by
  have hge := hfirst.ge
  unfold mainStep
  rcases nextSyncword_spec hb hptr with ⟨-, -, hnone⟩ | ⟨o', hnext, -, hfirst'⟩
  · exact absurd hfirst.occurs (hnone o hge hle)
  · rw [hnext, hfirst'.unique hfirst]
    dsimp only
    rw [if_pos (by omega)]

/-- The block ends in a frame, or the frame is refused or taken. -/
theorem mainStep_found (hs : Sized f) (hb : BlockAt stream B b) (hptr : ptr < b.length) {q : Nat}
    (hfirst : f.Next stream (B + ptr) (q + f.offset)) (hle : q + f.syncwordArea ≤ B + b.length)
    (hq : B + ptr ≤ q) :
    f.mainStep b s ptr =
      if B + b.length < q + f.framesize then
        (s.cache (slice stream q (B + b.length - q)), b.length)
      else if f.refuses (stream.drop q) = .ok true then (s, q - B + f.syncwordArea)
      else (f.deliver s (slice stream q f.framesize), q - B + f.framesize) := by
  have hshort := hb.short
  have hsum : f.syncwordArea = f.offset + f.size := rfl
  have hpos := hs.pos
  unfold mainStep
  rcases nextSyncword_spec hb hptr with ⟨-, -, hnone⟩ | ⟨o', hnext, -, hfirst'⟩
  · exact absurd hfirst.occurs (hnone _ hfirst.ge (by omega))
  · have hsof : q + f.offset - B - f.offset = q - B := by omega
    rw [hnext, hfirst'.unique hfirst]
    dsimp only
    rw [if_neg (by omega), hsof, Nat.mod_eq_of_lt (by omega)]
    by_cases htruncated : B + b.length < q + f.framesize
    · rw [if_pos htruncated, if_pos (by omega), hb.slice_eq (by omega),
        Nat.add_sub_cancel' (by omega : B ≤ q), show b.length - (q - B) = B + b.length - q by omega]
    · have hread : f.refuses (b.drop (q - B)) = f.refuses (stream.drop q) := by
        rw [hb.drop_eq (by omega), Nat.add_sub_cancel' (by omega : B ≤ q)]
        exact refuses_slice hs (by have := hs.header_le; omega)
      rw [if_neg htruncated, if_neg (by omega), hread]
      rcases refuses_ok hs (stream.drop q) with hrefused | haccepted
      · rw [hrefused, if_pos rfl]
      · rw [haccepted, if_neg nofun]
        dsimp only
        rw [hb.slice_eq (by omega), Nat.add_sub_cancel' (by omega : B ≤ q)]

/-- What is kept goes on where the scan may. -/
theorem live_kept (hs : Sized f) (hres : f.Resumes stream G R) (hptr : ptr < len)
    (hsize : 0 < f.size)
    (hnone : ∀ o, B + ptr ≤ o → o + f.size ≤ B + len → ¬f.Syncs stream o)
    (hresumes : G (B + ptr) (s.cache [])) (hrunning : s.halted = none) {nkeep : Nat}
    (hkeep : nkeep = min (f.syncwordArea - 1) (len - ptr)) :
    f.Live stream G B len (B + len - nkeep) len
      (s.cache (slice stream (B + len - nkeep) nkeep)) := by
  have htwice := hs.twice_le
  have hpos := hs.pos
  have harea : f.syncwordArea = f.offset + f.size := rfl
  have hkept : B + len - (B + len - nkeep) = nkeep := by omega
  refine ⟨Nat.le_refl _, by omega, ?_, by omega, fun hle => by omega, fun _ => .inr (.inr rfl), ?_,
    hrunning⟩
  · rw [hkept, cache_cached]
  · rcases Nat.lt_or_ge (f.syncwordArea - 1) (len - ptr) with hlong | hshort
    · exact hres.advance hresumes (by omega) fun o hge hlt => hnone o hge (by omega)
    · rwa [show B + len - nkeep = B + ptr by omega]

theorem mainStep_spec (hs : Sized f) (hres : f.Resumes stream G R) (hb : BlockAt stream B b)
    (hptr : ptr < b.length) (hcached : s.cached = [])
    (h : f.Live stream G B b.length (B + ptr) ptr s) :
    ∃ s' ptr', f.mainStep b s ptr = (s', ptr') ∧ (Done R s' ∨ ∃ a,
      f.Live stream G B b.length a ptr' s' ∧ ptr < ptr' ∧
        (s'.cached = [] ∨ ptr' = b.length)) := by
  have hfits := hb.fits
  have harea : f.syncwordArea = f.offset + f.size := rfl
  have htwice := hs.twice_le
  have hpos := hs.pos
  rcases nextSyncword_spec hb hptr with ⟨-, hsize, hnone⟩ | ⟨o, -, hle, hfirst⟩
  · rw [mainStep_none hs hb hptr hnone rfl]
    exact ⟨_, _, rfl, .inr ⟨_, live_kept hs hres hptr hsize hnone h.resumes h.running rfl, hptr,
      .inr rfl⟩⟩
  have hge := hfirst.ge
  by_cases hclose : o < B + ptr + f.offset
  · rw [mainStep_tooClose hb hptr hfirst hle hclose]
    refine ⟨_, _, rfl, .inr ⟨_, live_empty hs (by omega) hcached ?_ h.running, ?_, .inl hcached⟩⟩
    · rw [show B + (o - B + f.size) = o + f.size by omega]
      exact (hres.tooClose h.resumes hfirst hclose).1
    · have := hs.plain
      omega
  obtain ⟨q, rfl⟩ : ∃ q, o = q + f.offset := ⟨o - f.offset, by omega⟩
  have hq : B + ptr ≤ q := by omega
  have halign := hres.advance h.resumes hq hfirst.first
  rw [mainStep_found hs hb hptr hfirst (by omega) hq]
  by_cases htruncated : B + b.length < q + f.framesize
  · rw [if_pos htruncated]
    exact ⟨_, _, rfl, .inr ⟨q, ⟨Nat.le_refl _, by omega, rfl, by omega, fun _ => hfirst.occurs,
      fun _ => .inr (.inr rfl), halign, h.running⟩, hptr, .inr rfl⟩⟩
  rw [if_neg htruncated]
  rcases refuses_ok hs (stream.drop q) with hrefused | haccepted
  · have hsize := pos_of_refused hs hrefused
    rw [if_pos hrefused]
    refine ⟨_, _, rfl, .inr ⟨_, live_empty hs (by omega) hcached ?_ h.running, by omega,
      .inl hcached⟩⟩
    exact hres.refused halign hfirst.occurs hrefused (by omega) (by omega) (by omega)
  · have hempty : s.cache [] = s := by rw [State.cache, ← hcached]
    have hle' : q - B + f.framesize ≤ b.length := by omega
    have hpos' : B + (q - B + f.framesize) = q + f.framesize := by omega
    have htaken := deliver_spec hs hres hle' hpos' h.running hfirst.occurs (by omega) haccepted
      halign
    rw [hempty] at htaken
    rw [haccepted, if_neg nofun]
    refine ⟨_, _, rfl, htaken.imp_right fun hlive => ?_⟩
    exact ⟨_, hlive, by omega, .inl ((deliver_cached _ _).trans hcached)⟩

/-- Where nothing is cached the scan goes on at the pointer. -/
theorem Live.eq_of_empty (h : f.Live stream G B len a ptr s) (hfits : B + len ≤ stream.length)
    (hcached : s.cached = []) : a = B + ptr := by
  have hptr := h.ptr_le
  have hle := h.le
  have hlen := congrArg List.length h.cached
  rw [hcached, List.length_nil, length_slice] at hlen
  omega

theorem mainLoop_step {fuel : Nat} (hfuel : 0 < fuel) (hrunning : s.halted = none)
    (hptr : ptr < b.length) {s' : State} {ptr' : Nat} (hstep : f.mainStep b s ptr = (s', ptr')) :
    f.mainLoop b fuel s ptr = f.mainLoop b (fuel - 1) s' ptr' := by
  obtain ⟨fuel, rfl⟩ := Nat.exists_eq_add_of_lt hfuel
  rw [Nat.zero_add, mainLoop, if_pos ⟨hrunning, hptr⟩, hstep]
  rfl

theorem mainLoop_end {fuel : Nat} (hfuel : 0 < fuel) (hptr : b.length ≤ ptr) :
    f.mainLoop b fuel s ptr = s := by
  obtain ⟨fuel, rfl⟩ := Nat.exists_eq_add_of_lt hfuel
  rw [Nat.zero_add, mainLoop, if_neg fun hc => Nat.not_lt.mpr hptr hc.2]

theorem mainLoop_done {fuel : Nat} (hfuel : 0 < fuel) (h : Done R s) :
    f.mainLoop b fuel s ptr = s := by
  obtain ⟨fuel, rfl⟩ := Nat.exists_eq_add_of_lt hfuel
  rw [Nat.zero_add, mainLoop, if_neg fun hc => h.1 hc.1]

theorem mainLoop_spec (hs : Sized f) (hres : f.Resumes stream G R) (hb : BlockAt stream B b)
    {fuel : Nat} (hfuel : b.length < ptr + fuel) (hcached : s.cached = [] ∨ ptr = b.length)
    (h : f.Live stream G B b.length a ptr s) :
    Done R (f.mainLoop b fuel s ptr) ∨
      ∃ a, f.Live stream G B b.length a b.length (f.mainLoop b fuel s ptr) := by
  induction fuel generalizing a ptr s with
  | zero =>
    have := h.ptr_le
    omega
  | succ fuel ih =>
    by_cases hmore : ptr < b.length
    · have hempty := hcached.resolve_right (Nat.ne_of_lt hmore)
      obtain rfl := h.eq_of_empty hb.fits hempty
      obtain ⟨s', ptr', hstep, hnext⟩ := mainStep_spec hs hres hb hmore hempty h
      rw [mainLoop_step (Nat.succ_pos _) h.running hmore hstep, Nat.succ_sub_one]
      rcases hnext with hdone | ⟨a, hlive, hlt, hnext⟩
      · rw [mainLoop_done (by omega) hdone]
        exact .inl hdone
      · exact ih (by omega) hnext hlive
    · rw [mainLoop_end (Nat.succ_pos _) (Nat.not_lt.mp hmore)]
      obtain rfl : ptr = b.length := Nat.le_antisymm h.ptr_le (Nat.not_lt.mp hmore)
      exact .inr ⟨a, h⟩

/-! ## Cached bytes -/

theorem Live.length_cached (h : f.Live stream G B len a ptr s) (hfits : B + len ≤ stream.length) :
    s.cached.length = B + ptr - a := by
  have hptr := h.ptr_le
  have hle := h.le
  rw [h.cached, length_slice]
  omega

/-- After the header check, with `n` bytes in the cache. -/
theorem cachedStep_eq (hs : Sized f) (hb : BlockAt stream B b)
    (hptr : ptr < b.length) (hle : a ≤ B + ptr) (hheld : s.cached = slice stream a (B + ptr - a))
    {ncpy n : Nat} (hncpy : ncpy = if B + ptr - a < f.syncwordArea then
      min (2 * f.syncwordArea - 1 - (B + ptr - a)) (b.length - ptr)
      else min (f.framesize - (B + ptr - a)) (b.length - ptr))
    (hn : n = B + ptr - a + ncpy) :
    f.cachedStep b s ptr =
      if f.header ≤ n ∧ f.refuses (stream.drop a) = .ok true then
        (s.cache [], if f.syncwordArea < ptr + ncpy then ptr + ncpy - f.syncwordArea
          else ptr + ncpy)
      else f.cachedRest (s.cache (slice stream a n)) (ptr + ncpy) ncpy
        (decide (B + ptr - a < f.syncwordArea)) := by
  have hfits := hb.fits
  have hshort := hb.short
  have hlen : s.cached.length = B + ptr - a := by
    rw [hheld, length_slice]
    omega
  have hsearch : (decide (B + ptr - a < f.syncwordArea) && !f.noSyncword) =
      decide (B + ptr - a < f.syncwordArea) := by
    unfold noSyncword
    rcases Nat.eq_zero_or_pos f.size with hzero | hsize
    · have hnot : ¬B + ptr - a < f.syncwordArea := by
        have := hs.plain hzero
        unfold syncwordArea
        omega
      rw [decide_eq_false hnot]
      rfl
    · rw [beq_eq_false_iff_ne.mpr hsize.ne']
      exact Bool.and_true _
  have hcopied : min (f.framesize - (B + ptr - a)) (b.length - ptr) ≤ b.length - ptr ∧
      min (2 * f.syncwordArea - 1 - (B + ptr - a)) (b.length - ptr) ≤ b.length - ptr :=
    ⟨Nat.min_le_right _ _, Nat.min_le_right _ _⟩
  have hroom : ptr + ncpy ≤ b.length := by
    rw [hncpy]
    split <;> omega
  have hcached : s.cached ++ slice b ptr ncpy = slice stream a n := by
    rw [hheld, hb.slice_eq hroom, hn, ← slice_append_slice, Nat.add_sub_cancel' hle]
  have hcount : (if decide (B + ptr - a < f.syncwordArea) = true then
      min (2 * f.syncwordArea - 1 - (B + ptr - a)) (b.length - ptr)
      else min (f.framesize - (B + ptr - a)) (b.length - ptr)) = ncpy := by
    rw [hncpy]
    by_cases hm : B + ptr - a < f.syncwordArea
    · rw [decide_eq_true hm, if_pos rfl, if_pos hm]
    · rw [decide_eq_false hm, if_neg Bool.false_ne_true, if_neg hm]
  have hlength : (slice stream a n).length = n := by
    rw [length_slice]
    clear hncpy hcopied hcount hcached hsearch
    omega
  unfold cachedStep
  dsimp only
  rw [hlen, hsearch, Nat.mod_eq_of_lt (by omega), hcount, hcached, cache_cached, hlength]
  by_cases hheader : f.header ≤ n
  · rw [if_pos hheader, refuses_slice hs hheader]
    rcases refuses_ok hs (stream.drop a) with hrefused | haccepted
    · have hyes : f.header ≤ n ∧ (Except.ok true : Except HeaderError Bool) = .ok true :=
        ⟨hheader, rfl⟩
      rw [hrefused, if_pos hyes]
      rfl
    · have hno : ¬(f.header ≤ n ∧ (Except.ok false : Except HeaderError Bool) = .ok true) :=
        fun hc => nomatch hc.2
      rw [haccepted, if_neg hno]
  · rw [if_neg hheader, if_neg fun hc => hheader hc.1]

/-- A header that is refused: the cache is given up, and the scan goes on behind the sync word. -/
theorem live_refused (hs : Sized f) (hres : f.Resumes stream G R)
    (h : f.Live stream G B len a ptr s) {ncpy ptr' : Nat} (hroom : ptr + ncpy ≤ len)
    (hptr' : ptr' = if f.syncwordArea < ptr + ncpy then ptr + ncpy - f.syncwordArea
      else ptr + ncpy)
    (hheader : f.header ≤ B + ptr - a + ncpy) (hn : B + ptr - a + ncpy ≤ f.framesize)
    (hrefused : f.refuses (stream.drop a) = .ok true)
    (hcase : f.Syncs stream (a + f.offset) ∨ ¬f.Behind) :
    f.Live stream G B len (B + ptr') ptr' (s.cache []) := by
  have hle := h.le
  have harea := hs.area_le
  have hsum : f.syncwordArea = f.offset + f.size := rfl
  have hge : a ≤ B + ptr' ∧ B + ptr' ≤ B + ptr + ncpy ∧ ptr' ≤ len ∧
      B + ptr + ncpy ≤ B + ptr' + f.syncwordArea := by
    rw [hptr']
    split <;> omega
  refine live_empty hs hge.2.2.1 rfl ?_ h.running
  rcases hcase with hsyncs | hnot
  · refine hres.refused h.resumes hsyncs hrefused hge.1 (fun hbehind => ?_) (by omega)
    have htwice := hbehind (strict_of_refuses hrefused)
    omega
  · exact hres.unsynced h.resumes hnot hrefused hge.1 (by omega)

/-- More of a frame is copied, or all of it. -/
theorem cachedStep_copy (hs : Sized f) (hres : f.Resumes stream G R) (hb : BlockAt stream B b)
    (hptr : ptr < b.length) (hsynced : ¬B + ptr - a < f.syncwordArea)
    (h : f.Live stream G B b.length a ptr s) :
    ∃ s' ptr', f.cachedStep b s ptr = (s', ptr') ∧ (Done R s' ∨ ∃ a,
      f.Live stream G B b.length a ptr' s' ∧ (s'.cached = [] ∨ ptr < ptr')) := by
  have hfits := hb.fits
  have hle := h.le
  have hshort := h.short
  have hheader := hs.header_le
  have hsyncs := h.synced (Nat.not_lt.mp hsynced)
  generalize hncpy : min (f.framesize - (B + ptr - a)) (b.length - ptr) = ncpy
  generalize hn : B + ptr - a + ncpy = n
  rw [cachedStep_eq hs hb hptr hle h.cached (by rw [if_neg hsynced, hncpy]) hn.symm]
  -- the whole frame is there then, or the whole block is
  have hcopied : ptr + ncpy ≤ b.length ∧ n ≤ f.framesize ∧
      (n = f.framesize ∨ ptr + ncpy = b.length) := by
    clear hsyncs hheader hfits
    omega
  clear hncpy
  have hplace : a + n = B + ptr + ncpy := by omega
  clear hn
  by_cases hrefused : f.header ≤ n ∧ f.refuses (stream.drop a) = .ok true
  · rw [if_pos hrefused]
    exact ⟨_, _, rfl, .inr ⟨_, live_refused hs hres h (by omega) rfl (by omega) (by omega)
      hrefused.2 (.inl hsyncs), .inl rfl⟩⟩
  · rw [if_neg hrefused, decide_eq_false hsynced]
    have hlength : (slice stream a n).length = n := by
      rw [length_slice]
      omega
    unfold cachedRest
    rw [cache_cached, hlength]
    by_cases hcomplete : n = f.framesize
    · rw [if_pos hcomplete, deliver_cache, hcomplete]
      have haccepted := (refuses_ok hs (stream.drop a)).resolve_left fun hc =>
        hrefused ⟨by omega, hc⟩
      have hroom : ptr + ncpy ≤ b.length := by omega
      have hpos : B + (ptr + ncpy) = a + f.framesize := by omega
      have htaken := deliver_spec hs hres hroom hpos h.running hsyncs (by omega) haccepted h.resumes
      refine ⟨_, _, rfl, htaken.imp_right fun hlive => ?_⟩
      exact ⟨_, hlive, .inl (deliver_cached _ _)⟩
    · rw [if_neg hcomplete]
      refine ⟨_, _, rfl, .inr ⟨a, ⟨by omega, by omega, ?_, by omega, fun _ => hsyncs,
        fun hlt => by omega, h.resumes, h.running⟩, .inr (by omega)⟩⟩
      have hlen : B + (ptr + ncpy) - a = n := by omega
      rw [cache_cached, hlen]

/-- The sync word of a frame is looked for in what is cached and the begin of the block. -/
theorem cachedStep_search (hs : Sized f) (hres : f.Resumes stream G R) (hb : BlockAt stream B b)
    (hptr : ptr < b.length) (hcached : s.cached ≠ []) (hsearch : B + ptr - a < f.syncwordArea)
    (h : f.Live stream G B b.length a ptr s) :
    ∃ s' ptr', f.cachedStep b s ptr = (s', ptr') ∧ (Done R s' ∨ ∃ a,
      f.Live stream G B b.length a ptr' s' ∧ (s'.cached = [] ∨ ptr < ptr')) := by
  have hfits := hb.fits
  have hshort := hb.short
  have hle := h.le
  have htwice := hs.twice_le
  have harea := hs.area_le
  have hlt := hs.area_lt
  have hsum : f.syncwordArea = f.offset + f.size := rfl
  have hsize : 0 < f.size := by
    have := hs.plain
    omega
  have hlen : 0 < B + ptr - a := by
    rw [← h.length_cached hfits]
    exact List.length_pos_of_ne_nil hcached
  obtain rfl : ptr = 0 := by
    have := h.edge hsearch
    omega
  generalize hncpy : min (2 * f.syncwordArea - 1 - (B + 0 - a)) (b.length - 0) = ncpy
  generalize hn : B + 0 - a + ncpy = n
  rw [cachedStep_eq hs hb hptr hle h.cached (by rw [if_pos hsearch, hncpy]) hn.symm]
  -- either two areas, but for a byte, are there then, or the whole block is
  have hcopied : ncpy ≤ b.length ∧ n + 1 ≤ 2 * f.syncwordArea ∧
      (n + 1 = 2 * f.syncwordArea ∨ ncpy = b.length) := by omega
  clear hncpy
  have hplace : a + n = B + ncpy := by omega
  have hbefore : a < B ∧ B < a + f.syncwordArea := by omega
  clear hn hlen
  by_cases hrefused : f.header ≤ n ∧ f.refuses (stream.drop a) = .ok true
  · rw [if_pos hrefused]
    have hnot : ¬f.Behind := fun hbehind => by
      have := hbehind (strict_of_refuses hrefused.2)
      omega
    exact ⟨_, _, rfl, .inr ⟨_, live_refused hs hres h (by omega) rfl (by omega) (by omega)
      hrefused.2 (.inr hnot), .inl rfl⟩⟩
  · have hlength : (slice stream a n).length = n := by
      rw [length_slice]
      omega
    rw [if_neg hrefused, decide_eq_true hsearch]
    clear hsearch hrefused
    unfold cachedRest
    rw [cache_cached, hlength, if_neg (by omega)]
    rcases search_slice hsize (show a + n ≤ stream.length by omega) (by omega) with
      ⟨hfound, hnone⟩ | ⟨o, hfound, hfit, hnext⟩
    · rw [hfound]
      dsimp only
      rw [Bool.not_true, if_neg Bool.false_ne_true]
      by_cases hmany : f.syncwordArea - 1 ≤ ncpy
      · rw [if_pos hmany]
        refine ⟨_, _, rfl, .inr ⟨B + 0, live_empty hs (Nat.zero_le _) rfl ?_ h.running,
          .inl rfl⟩⟩
        exact hres.advance h.resumes hle fun o hge hlt => hnone o hge (by omega)
      · rw [if_neg hmany]
        generalize hkeep : min (f.syncwordArea - 1) n = nkeep
        have hle' : nkeep ≤ n ∧ nkeep + 1 ≤ f.syncwordArea := by omega
        have hall : n ≤ f.syncwordArea - 1 → nkeep = n := fun hall => by
          rw [← hkeep, Nat.min_eq_right hall]
        have hlong : f.syncwordArea - 1 < n → nkeep + 1 = f.syncwordArea := fun hlong => by
          rw [← hkeep, Nat.min_eq_left hlong.le, Nat.sub_add_cancel (by omega)]
        clear hkeep
        obtain ⟨skip, hskip⟩ := Nat.exists_eq_add_of_le hle'.1
        have hsub : n - nkeep = skip := by rw [hskip, Nat.add_sub_cancel_left]
        rw [hsub]
        have hkept : B + (0 + ncpy) - (a + skip) = nkeep := by omega
        refine ⟨_, _, rfl, .inr ⟨a + skip, ⟨by omega, by omega, ?_, by omega,
          fun hc => by omega, fun _ => .inr (.inr (by omega)), ?_, h.running⟩,
          .inr (by omega)⟩⟩
        · rw [cache_cached, drop_slice, hkept, hskip, Nat.add_sub_cancel]
        · rcases Nat.lt_or_ge (f.syncwordArea - 1) n with hmore | hfew
          · have harea' := hlong hmore
            exact hres.advance h.resumes (by omega) fun o hge hlt => hnone o hge (by omega)
          · obtain rfl : skip = 0 := by
              have := hall hfew
              omega
            exact h.resumes
    · have hge := hnext.ge
      rw [hfound]
      dsimp only
      rw [Bool.not_true, if_neg Bool.false_ne_true]
      by_cases hclose : o - a < f.offset
      · -- the bytes before it are not there
        rw [if_pos hclose]
        refine ⟨_, _, rfl, .inr ⟨B + 0, live_empty hs (Nat.zero_le _) rfl ?_ h.running,
          .inl rfl⟩⟩
        exact (hres.tooClose h.resumes hnext (by omega)).2 _ hle (by omega)
      · rw [if_neg hclose]
        obtain ⟨q, rfl⟩ : ∃ q, o = q + f.offset := ⟨o - f.offset, by omega⟩
        have hkept : B + (0 + ncpy) - q = n - (q + f.offset - a - f.offset) := by omega
        have hq : a + (q + f.offset - a - f.offset) = q := by omega
        refine ⟨_, _, rfl, .inr ⟨q, ⟨by omega, by omega, ?_, by omega, fun _ => hnext.occurs,
          fun hc => by omega, hres.advance h.resumes (by omega) hnext.first, h.running⟩,
          .inr (by omega)⟩⟩
        rw [cache_cached, drop_slice, hkept, hq]

theorem cachedStep_spec (hs : Sized f) (hres : f.Resumes stream G R) (hb : BlockAt stream B b)
    (hptr : ptr < b.length) (hcached : s.cached ≠ []) (h : f.Live stream G B b.length a ptr s) :
    ∃ s' ptr', f.cachedStep b s ptr = (s', ptr') ∧ (Done R s' ∨ ∃ a,
      f.Live stream G B b.length a ptr' s' ∧ (s'.cached = [] ∨ ptr < ptr')) := by
  by_cases hsearch : B + ptr - a < f.syncwordArea
  · exact cachedStep_search hs hres hb hptr hcached hsearch h
  · exact cachedStep_copy hs hres hb hptr hsearch h

theorem cachedLoop_step {fuel : Nat} (hfuel : 0 < fuel) (hrunning : s.halted = none)
    (hcached : s.cached ≠ []) (hptr : ptr < b.length) {s' : State} {ptr' : Nat}
    (hstep : f.cachedStep b s ptr = (s', ptr')) :
    f.cachedLoop b fuel s ptr = f.cachedLoop b (fuel - 1) s' ptr' := by
  obtain ⟨fuel, rfl⟩ := Nat.exists_eq_add_of_lt hfuel
  rw [Nat.zero_add, cachedLoop, if_pos ⟨hrunning, hcached, hptr⟩, hstep]
  rfl

theorem cachedLoop_end {fuel : Nat} (hfuel : 0 < fuel) (h : s.cached = [] ∨ b.length ≤ ptr) :
    f.cachedLoop b fuel s ptr = (s, ptr) := by
  obtain ⟨fuel, rfl⟩ := Nat.exists_eq_add_of_lt hfuel
  rw [Nat.zero_add, cachedLoop, if_neg fun hc => ?_]
  rcases h with hempty | hptr
  · exact hc.2.1 hempty
  · exact Nat.not_lt.mpr hptr hc.2.2

/-- With nothing held back. -/
theorem takeBlock_cleared (h : s.cached = []) :
    f.takeBlock s b = f.mainLoop b (b.length + 1) s 0 := by
  unfold takeBlock
  rw [cachedLoop_end (Nat.succ_pos _) (.inl h)]

theorem cachedLoop_done {fuel : Nat} (hfuel : 0 < fuel) (h : Done R s) :
    f.cachedLoop b fuel s ptr = (s, ptr) := by
  obtain ⟨fuel, rfl⟩ := Nat.exists_eq_add_of_lt hfuel
  rw [Nat.zero_add, cachedLoop, if_neg fun hc => h.1 hc.1]

/-- The loop ends with nothing cached or with nothing left of the block. -/
theorem cachedLoop_spec (hs : Sized f) (hres : f.Resumes stream G R) (hb : BlockAt stream B b)
    {fuel : Nat} (hfuel : b.length < ptr + fuel ∨ (s.cached = [] ∧ 0 < fuel))
    (h : f.Live stream G B b.length a ptr s) :
    ∃ s' ptr', f.cachedLoop b fuel s ptr = (s', ptr') ∧ (Done R s' ∨ ∃ a,
      f.Live stream G B b.length a ptr' s' ∧ (s'.cached = [] ∨ ptr' = b.length)) := by
  induction fuel generalizing a ptr s with
  | zero =>
    have := h.ptr_le
    omega
  | succ fuel ih =>
    by_cases hmore : s.cached = [] ∨ b.length ≤ ptr
    · refine ⟨s, ptr, cachedLoop_end (Nat.succ_pos _) hmore, .inr ⟨a, h, ?_⟩⟩
      exact hmore.imp_right fun hend => Nat.le_antisymm h.ptr_le hend
    · obtain ⟨hempty, hptr⟩ := not_or.mp hmore
      have hptr := Nat.not_le.mp hptr
      have hleft := hfuel.resolve_right fun hc => hempty hc.1
      obtain ⟨s', ptr', hstep, hnext⟩ := cachedStep_spec hs hres hb hptr hempty h
      rw [cachedLoop_step (Nat.succ_pos _) h.running hempty hptr hstep, Nat.succ_sub_one]
      rcases hnext with hdone | ⟨a, hlive, hnext⟩
      · exact ⟨s', ptr', cachedLoop_done (by omega) hdone, .inl hdone⟩
      · refine ih ?_ hlive
        rcases hnext with hempty | hlt
        · exact .inr ⟨hempty, by omega⟩
        · exact .inl (by omega)

/-! ## Blocks -/

theorem takeBlock_done (h : Done R s) : f.takeBlock s b = s := by
  unfold takeBlock
  rw [cachedLoop_done (Nat.succ_pos _) h]
  exact mainLoop_done (Nat.succ_pos _) h

theorem takeBlock_spec (hs : Sized f) (hres : f.Resumes stream G R) (hb : BlockAt stream B b)
    (h : f.Live stream G B b.length a 0 s) :
    Done R (f.takeBlock s b) ∨
      ∃ a, f.Live stream G B b.length a b.length (f.takeBlock s b) := by
  unfold takeBlock
  obtain ⟨s', ptr, hloop, hdone | ⟨a, hlive, hcached⟩⟩ :=
    cachedLoop_spec hs hres hb (.inl (show b.length < 0 + (b.length + 4) by omega)) h
  · rw [hloop]
    dsimp only
    rw [mainLoop_done (Nat.succ_pos _) hdone]
    exact .inl hdone
  · rw [hloop]
    exact mainLoop_spec hs hres hb (by omega) hcached hlive

/-- The end of a block is the begin of the next. -/
theorem Live.next (h : f.Live stream G B len a len s) (len' : Nat) :
    f.Live stream G (B + len) len' a 0 s :=
  ⟨Nat.zero_le _, h.le, h.cached, h.short, h.synced, fun _ => .inr (.inl rfl), h.resumes,
    h.running⟩

theorem takeBlocks_done {blocks : List (List Crc.Byte)} (h : Done R s) :
    blocks.foldl f.takeBlock s = s := by
  induction blocks with
  | nil => rfl
  | cons b blocks ih => rwa [List.foldl_cons, takeBlock_done h]

theorem takeBlocks_spec (hs : Sized f) (hres : f.Resumes stream G R)
    {blocks : List (List Crc.Byte)} (hB : B ≤ stream.length)
    (hshort : ∀ b ∈ blocks, b.length < 2 ^ 31 - 1) (hstream : stream.drop B = blocks.flatten)
    (h : f.Live stream G B 0 a 0 s) : R ((blocks.foldl f.takeBlock s).cache []) := by
  induction blocks generalizing B a s with
  | nil =>
    have hend : stream.length ≤ B := List.drop_eq_nil_iff.mp hstream
    have hle := h.le
    have hfew := h.short
    exact hres.stop h.resumes (by omega)
  | cons b blocks ih =>
    have hlength := congrArg List.length hstream
    rw [List.flatten_cons, List.length_drop, List.length_append] at hlength
    have hb : BlockAt stream B b := by
      refine ⟨?_, by omega, hshort b List.mem_cons_self⟩
      rw [slice, hstream, List.flatten_cons, List.take_left]
    have hrest : stream.drop (B + b.length) = blocks.flatten := by
      rw [← List.drop_drop, hstream, List.flatten_cons, List.drop_left]
    rw [List.foldl_cons]
    rcases takeBlock_spec hs hres hb (h.next b.length) with hdone | ⟨a, hlive⟩
    · rw [takeBlocks_done hdone]
      exact hdone.2
    · exact ih hb.fits (fun c hc => hshort c (List.mem_cons_of_mem b hc)) hrest (hlive.next 0)

/-- In whatever blocks a stream comes, what is taken is what is taken from its begin on. -/
theorem framer_resumes (hs : Sized f) (hres : f.Resumes stream G R)
    (hstart : G 0 ⟨[], .cleared, [], none⟩) {blocks : List (List Crc.Byte)}
    (hstream : blocks.flatten = stream) (hshort : ∀ b ∈ blocks, b.length < 2 ^ 31 - 1) :
    R ((f.framer blocks).cache []) := by
  unfold framer
  rw [if_neg (Nat.not_lt.mpr hs.header_le)]
  exact takeBlocks_spec hs hres (Nat.zero_le _) hshort hstream.symm
    (live_empty hs (Nat.le_refl 0) rfl hstart rfl)

end Framer
end Jive5ab.Headersearch
