import Jive5ab.Headersearch.FramerBlocks

/-! # The frames of a stream

Where the framer finds its frames, told by the stream alone: a scan goes from sync word to sync
word. Whatever the blocks are in which the stream comes, the framer follows the scan, if there is
one. -/
namespace Jive5ab.Headersearch
open Lib

namespace Framer

/-! ## The scan -/

variable (f : Framer) (stream : List Crc.Byte)

/-- A frame that is there as a whole. -/
structure Candidate (q : Nat) : Prop where
  syncs : f.Syncs stream (q + f.offset)
  complete : q + f.framesize ≤ stream.length

/-- No other sync word begins behind it for as long as a frame is. -/
def Alone (o : Nat) : Prop := ∀ o', o < o' → o' < o + f.framesize → ¬f.Syncs stream o'

/-- Nothing more is taken. -/
def Dead (p : Nat) : Prop :=
  ∀ q, p ≤ q → f.Candidate stream q → f.refuses (stream.drop q) = .ok true

/-- From a position on, these frames are taken. Sync words that are passed over stand alone. -/
inductive Scan : Nat → List Nat → Prop
  | stop {p : Nat} (dead : f.Dead stream p) : Scan p []
  | frame {p q : Nat} {qs : List Nat} (next : f.Next stream p (q + f.offset)) (ge : p ≤ q)
    (complete : q + f.framesize ≤ stream.length)
    (accepted : f.refuses (stream.drop q) = .ok false) (aligned : f.Behind ∨ q = p)
    (rest : Scan (q + f.framesize) qs) : Scan p (q :: qs)
  | refused {p q : Nat} {qs : List Nat} (next : f.Next stream p (q + f.offset)) (ge : p ≤ q)
    (refused : f.refuses (stream.drop q) = .ok true) (alone : f.Alone stream (q + f.offset))
    (behind : f.Behind) (rest : Scan (q + f.framesize) qs) : Scan p qs
  | tooClose {p o : Nat} {qs : List Nat} (next : f.Next stream p o) (lt : o < p + f.offset)
    (alone : f.Alone stream o) (behind : f.Behind) (rest : Scan (o + f.size) qs) : Scan p qs

variable {f stream}

theorem Dead.mono {p a : Nat} (h : f.Dead stream p) (hle : p ≤ a) : f.Dead stream a :=
  fun q hq => h q (Nat.le_trans hle hq)

/-- Where less than a frame is left, none is taken. -/
theorem Scan.nil_of_short {p : Nat} {qs : List Nat} (h : f.Scan stream p qs)
    (hshort : stream.length < p + f.framesize) : qs = [] := by
  induction h with
  | stop _ => rfl
  | frame next ge complete _ _ _ _ => omega
  | refused next ge _ _ _ _ ih => exact ih (by omega)
  | tooClose next _ _ _ _ ih =>
    have := next.ge
    exact ih (by omega)

/-- Where no sync word of a frame is, the scan may start later. -/
theorem Scan.advance {p a : Nat} {qs : List Nat} (h : f.Scan stream p qs) (hle : p ≤ a)
    (hnone : ∀ o, p ≤ o → o < a + f.offset → ¬f.Syncs stream o) : f.Scan stream a qs := by
  have hnext {q : Nat} (next : f.Next stream p (q + f.offset)) :
      f.Next stream a (q + f.offset) ∧ a ≤ q := by
    have hq : a ≤ q := by
      by_contra hlt
      exact hnone _ next.ge (by omega) next.occurs
    exact ⟨⟨by omega, next.le, next.occurs, fun o ho => next.first o (Nat.le_trans hle ho)⟩, hq⟩
  cases h with
  | stop dead => exact .stop (dead.mono hle)
  | frame next ge complete accepted aligned rest =>
    obtain ⟨hnext, hq⟩ := hnext next
    exact .frame hnext hq complete accepted (aligned.imp_right fun heq => by omega) rest
  | refused next ge refused alone behind rest =>
    obtain ⟨hnext, hq⟩ := hnext next
    exact .refused hnext hq refused alone behind rest
  | tooClose next lt alone behind rest =>
    exact absurd next.occurs (hnone _ next.ge (by omega))

/-- It may also start earlier. -/
theorem Scan.extend {p x : Nat} {qs : List Nat} (h : f.Scan stream p qs) (behind : f.Behind)
    (hle : x ≤ p) (hnone : ∀ o, x ≤ o → o < p + f.offset → ¬f.Syncs stream o) :
    f.Scan stream x qs := by
  have hnext {o : Nat} (next : f.Next stream p o) : f.Next stream x o := by
    refine ⟨Nat.le_trans hle next.ge, next.le, next.occurs, fun r hr hlt => ?_⟩
    rcases Nat.lt_or_ge r p with hbefore | hafter
    · exact hnone r hr (by omega)
    · exact next.first r hafter hlt
  cases h with
  | stop dead =>
    refine .stop fun q hq hcandidate => ?_
    rcases Nat.lt_or_ge q p with hbefore | hafter
    · exact absurd hcandidate.syncs (hnone _ (by omega) (by omega))
    · exact dead q hafter hcandidate
  | frame next ge complete accepted aligned rest =>
    exact .frame (hnext next) (Nat.le_trans hle ge) complete accepted (.inl behind) rest
  | refused next ge refused alone behind rest =>
    exact .refused (hnext next) (Nat.le_trans hle ge) refused alone behind rest
  | tooClose next lt alone behind rest =>
    have hge := next.ge
    exact absurd next.occurs (hnone _ (by omega) (by omega))

/-- Behind a sync word that stands alone the scan may start anywhere. -/
theorem Scan.retreat {o p x : Nat} {qs : List Nat} (h : f.Scan stream p qs)
    (alone : f.Alone stream o) (behind : f.Behind) (hlt : o < x) (hle : x ≤ p)
    (hp : p + f.offset ≤ o + f.framesize) : f.Scan stream x qs :=
  h.extend behind hle fun o' hge hlt' => alone o' (by omega) (by omega)

/-- A sync word that is too close is passed over. -/
theorem Scan.skip {p o : Nat} {qs : List Nat} (h : f.Scan stream p qs) (hnext : f.Next stream p o)
    (hlt : o < p + f.offset) : f.Scan stream (o + f.size) qs := by
  cases h with
  | stop dead => exact .stop (dead.mono (Nat.le_trans hnext.ge (Nat.le_add_right _ _)))
  | frame next ge _ _ _ _ | refused next ge _ _ _ _ =>
    have := next.unique hnext
    omega
  | tooClose next _ _ _ rest => rwa [next.unique hnext] at rest

/-- Where the bytes that are cached are given up, the scan may start at the block. -/
theorem Scan.restart {p o B : Nat} {qs : List Nat} (hs : Sized f)
    (h : f.Scan stream p qs) (hnext : f.Next stream p o) (hlt : o < p + f.offset) (hge : p ≤ B)
    (hle : B ≤ p + f.syncwordArea) : f.Scan stream B qs := by
  have hsum : f.syncwordArea = f.offset + f.size := rfl
  have htwice := hs.twice_le
  have hplain := hs.plain
  cases h with
  | stop dead => exact .stop (dead.mono hge)
  | frame next ge _ _ _ _ | refused next ge _ _ _ _ =>
    have := next.unique hnext
    omega
  | @tooClose _ o' _ next _ alone behind rest =>
    obtain rfl := next.unique hnext
    have hpo := next.ge
    rcases Nat.lt_or_ge o' B with hpassed | hahead
    · rcases Nat.le_total B (o' + f.size) with hinside | houtside
      · exact rest.retreat alone behind hpassed hinside (by omega)
      · exact rest.advance houtside fun o ho hlt' => alone o (by omega) (by omega)
    · have hnext' : f.Next stream B o' :=
        ⟨hahead, next.le, next.occurs, fun o ho => next.first o (Nat.le_trans hge ho)⟩
      exact .tooClose hnext' (by omega) alone behind rest

/-- Where there is a sync word the scan is dead, or the frame of it is refused or taken. -/
theorem Scan.head {p : Nat} {qs : List Nat} (hs : Sized f) (h : f.Scan stream p qs)
    (hsyncs : f.Syncs stream (p + f.offset)) :
    (f.Dead stream p ∧ qs = []) ∨
    (f.refuses (stream.drop p) = .ok true ∧ f.Alone stream (p + f.offset) ∧ f.Behind ∧
      f.Scan stream (p + f.framesize) qs) ∨
    (f.refuses (stream.drop p) = .ok false ∧
      ∃ rest, qs = p :: rest ∧ f.Scan stream (p + f.framesize) rest) := by
  have hsum : f.syncwordArea = f.offset + f.size := rfl
  have htwice := hs.twice_le
  have hpos := hs.pos
  have hfirst {q : Nat} (next : f.Next stream p (q + f.offset)) (ge : p ≤ q) : q = p := by
    by_contra hne
    exact next.first (p + f.offset) (Nat.le_add_right _ _) (by omega) hsyncs
  cases h with
  | stop dead => exact .inl ⟨dead, rfl⟩
  | @frame _ q rest next ge _ accepted _ hrest =>
    obtain rfl := hfirst next ge
    exact .inr (.inr ⟨accepted, rest, rfl, hrest⟩)
  | @refused _ q _ next ge refused alone behind hrest =>
    obtain rfl := hfirst next ge
    exact .inr (.inl ⟨refused, alone, behind, hrest⟩)
  | @tooClose _ o _ next lt alone _ _ =>
    have hge := next.ge
    exact absurd hsyncs (alone _ lt (by omega))

/-- Behind a header that is refused the scan may start anywhere, as far as a frame is long. -/
theorem Scan.pass {q x : Nat} {qs : List Nat} (hs : Sized f) (h : f.Scan stream q qs)
    (hsyncs : f.Syncs stream (q + f.offset)) (hrefused : f.refuses (stream.drop q) = .ok true)
    (hge : q ≤ x) (hbehind : f.Behind → q + f.syncwordArea ≤ x) (hle : x ≤ q + f.framesize) :
    f.Scan stream x qs := by
  have hsum : f.syncwordArea = f.offset + f.size := rfl
  have hsize := pos_of_refused hs hrefused
  rcases h.head hs hsyncs with ⟨dead, rfl⟩ | ⟨-, alone, behind, rest⟩ | ⟨haccepted, -⟩
  · exact .stop (dead.mono hge)
  · have harea := hbehind behind
    exact rest.retreat alone behind (by omega) hle (by omega)
  · rw [hrefused] at haccepted
    cases haccepted

/-- A header that is refused before its sync word is looked for is none of a frame. -/
theorem Scan.dead_of_refused {p : Nat} {qs : List Nat} (h : f.Scan stream p qs)
    (hrefused : f.refuses (stream.drop p) = .ok true) (hnot : ¬f.Behind) :
    f.Dead stream p ∧ qs = [] := by
  cases h with
  | stop dead => exact ⟨dead, rfl⟩
  | frame _ _ _ accepted aligned _ =>
    rw [aligned.resolve_left hnot, hrefused] at accepted
    cases accepted
  | refused _ _ _ _ behind _ => exact absurd behind hnot
  | tooClose _ _ _ behind _ => exact absurd behind hnot

/-! ## Frames that are taken -/

variable (f stream) in
/-- The frames of a scan, up to an exception. -/
def deliverAll (qs : List Nat) (s : State) : State :=
  qs.foldl (fun s q => if s.halted = none then f.deliver s (slice stream q f.framesize) else s) s

theorem deliverAll_cons {s : State} (h : s.halted = none) (q : Nat) (qs : List Nat) :
    f.deliverAll stream (q :: qs) s =
      f.deliverAll stream qs (f.deliver s (slice stream q f.framesize)) := by
  rw [deliverAll, List.foldl_cons, if_pos h]
  rfl

theorem deliverAll_halted {s : State} (h : s.halted ≠ none) (qs : List Nat) :
    f.deliverAll stream qs s = s := by
  induction qs with
  | nil => rfl
  | cons q qs ih =>
    rw [deliverAll, List.foldl_cons, if_neg h]
    exact ih

/-- The frames of a scan are what is taken. -/
theorem resumes_scan (hs : Sized f) (R : State → Prop) :
    f.Resumes stream (fun p s => ∃ qs, f.Scan stream p qs ∧ R (f.deliverAll stream qs s)) R where
  advance := by
    rintro p a s ⟨qs, hscan, hresult⟩ hle hnone
    exact ⟨qs, hscan.advance hle hnone, hresult⟩
  tooClose := by
    rintro p o s ⟨qs, hscan, hresult⟩ hnext hlt
    exact ⟨⟨qs, hscan.skip hnext hlt, hresult⟩,
      fun B hge hle => ⟨qs, hscan.restart hs hnext hlt hge hle, hresult⟩⟩
  refused := by
    rintro q x s ⟨qs, hscan, hresult⟩ hsyncs hrefused hge hbehind hle
    exact ⟨qs, hscan.pass hs hsyncs hrefused hge hbehind hle, hresult⟩
  unsynced := by
    rintro p x s ⟨qs, hscan, hresult⟩ hnot hrefused hge -
    obtain ⟨dead, rfl⟩ := hscan.dead_of_refused hrefused hnot
    exact ⟨[], .stop (dead.mono hge), hresult⟩
  accepted := by
    rintro q s ⟨qs, hscan, hresult⟩ hrunning hsyncs hcomplete haccepted
    have hnot : f.refuses (stream.drop q) ≠ .ok true := by
      rw [haccepted]
      exact nofun
    rcases hscan.head hs hsyncs with ⟨dead, -⟩ | ⟨hrefused, -⟩ | ⟨-, rest, rfl, hrest⟩
    · exact absurd (dead q (Nat.le_refl q) ⟨hsyncs, hcomplete⟩) hnot
    · exact absurd hrefused hnot
    · rw [deliverAll_cons hrunning] at hresult
      refine ⟨fun _ => ⟨rest, hrest, hresult⟩, fun hhalted => ?_⟩
      rwa [deliverAll_halted hhalted] at hresult
  stop := by
    rintro p s ⟨qs, hscan, hresult⟩ hshort
    rwa [hscan.nil_of_short hshort] at hresult

/-- In whatever blocks a stream comes, the frames of its scan are taken. -/
theorem framer_of_scan (hs : Sized f) {qs : List Nat} (hscan : f.Scan stream 0 qs)
    {blocks : List (List Crc.Byte)} (hstream : blocks.flatten = stream)
    (hshort : ∀ b ∈ blocks, b.length < 2 ^ 31 - 1) :
    (f.framer blocks).cache [] = f.deliverAll stream qs ⟨[], .cleared, [], none⟩ :=
  framer_resumes hs (resumes_scan hs (· = f.deliverAll stream qs ⟨[], .cleared, [], none⟩))
    ⟨qs, hscan, rfl⟩ hstream hshort

end Framer
end Jive5ab.Headersearch
