import Mathlib

/-! # The size of a transfer

How `fiforeader` and `diskreader` of `threadfns.cc` find the number of bytes that they ask of the
StreamStor at once. -/
namespace Jive5ab.Streamstor

def MB : Nat := 1024 * 1024

/-- The two readers do the same. -/
inductive Reader
  | fiforeader
  | diskreader
  deriving DecidableEq

def Reader.name : Reader → String
  | .fiforeader => "fiforeader"
  | .diskreader => "diskreader"

/-- Blocks as they are after `validate()`; `net_protocol` takes no zero number of them. -/
structure Request where
  blocksize : Nat
  nblock : Nat
  blocksize_lt : blocksize < 2 ^ 32
  nblock_lt : nblock < 2 ^ 32
  blocksize_mod : blocksize % 8 = 0
  nblock_pos : 0 < nblock

/-- `iosz` and `nalloc` -/
structure Transfer where
  iosz : Nat
  nalloc : Nat
  deriving DecidableEq

/-- `while( nr<maxnr )`; without a divider `iosz` stays zero. -/
def findIosz (blocksize maxnr : Nat) : Nat → Nat → Nat
  | 0, _ => 0
  | fuel + 1, nr =>
    if nr < maxnr then
      if blocksize % nr ≠ 0 then findIosz blocksize maxnr fuel (nr + 1)
      else
        let tmpiosz := blocksize / nr
        if tmpiosz % 8 ≠ 0 then findIosz blocksize maxnr fuel (nr + 1) else tmpiosz
    else 0

def Request.transfer (reader : Reader) (r : Request) : Except String Transfer :=
  let nbyteReq := r.blocksize * r.nblock
  if r.blocksize = 0 then .error (reader.name ++ ": blocksize of 0 is not supported")
  else if 128 * MB < nbyteReq then
    .error (reader.name ++ ": nblock * blocksize>128MB is a bit too much to ask for")
  else if nbyteReq < 8 * MB then .ok ⟨r.blocksize, 32 * MB / r.blocksize⟩
  else
    let nr := max (r.blocksize / (8 * MB)) 1
    let maxnr := r.blocksize / 1024
    let iosz := findIosz r.blocksize maxnr maxnr nr
    if iosz = 0 then
      .error (reader.name ++ ": Could not find a suitable streamstor I/O size for blocksize " ++
        toString r.blocksize)
    else .ok ⟨iosz, r.nblock⟩

/-! ## What is asked of it -/

/-- Accepted by the readers. -/
structure Request.Accepted (r : Request) : Prop where
  pos : 0 < r.blocksize
  small : r.blocksize * r.nblock ≤ 128 * MB

/-- The StreamStor takes it, and a block is a number of them. -/
structure Suits (blocksize iosz : Nat) : Prop where
  divides : iosz ∣ blocksize
  eight : 8 ∣ iosz
  below : iosz < 8 * MB

/-- What is found suits, and something is found if there is any that suits. -/
structure Request.Right (reader : Reader) (r : Request) : Prop where
  suits : ∀ t, r.transfer reader = .ok t → Suits r.blocksize t.iosz
  found : ∀ iosz, 1024 ≤ iosz → Suits r.blocksize iosz → ∃ t, r.transfer reader = .ok t

/-! ## The search -/

/-- A divider that is taken. -/
def Divider (blocksize nr : Nat) : Prop := blocksize % nr = 0 ∧ blocksize / nr % 8 = 0

instance (blocksize nr : Nat) : Decidable (Divider blocksize nr) := by
  unfold Divider
  infer_instance

theorem findIosz_step {blocksize maxnr fuel nr : Nat} (h : nr < maxnr) :
    findIosz blocksize maxnr (fuel + 1) nr =
      if Divider blocksize nr then blocksize / nr else findIosz blocksize maxnr fuel (nr + 1) := by
  rw [findIosz, if_pos h]
  by_cases hdiv : blocksize % nr = 0
  · rw [if_neg (not_not.mpr hdiv)]
    by_cases height : blocksize / nr % 8 = 0
    · have htaken : Divider blocksize nr := ⟨hdiv, height⟩
      rw [if_pos htaken]
      exact if_neg (not_not.mpr height)
    · have hnot : ¬Divider blocksize nr := fun hboth => height hboth.2
      rw [if_neg hnot]
      exact if_pos height
  · have hnot : ¬Divider blocksize nr := fun hboth => hdiv hboth.1
    rw [if_pos hdiv, if_neg hnot]

theorem findIosz_sound {blocksize maxnr fuel nr : Nat}
    (h : findIosz blocksize maxnr fuel nr ≠ 0) :
    ∃ n, nr ≤ n ∧ n < maxnr ∧ Divider blocksize n ∧
      findIosz blocksize maxnr fuel nr = blocksize / n := by
  induction fuel generalizing nr with
  | zero => exact absurd rfl h
  | succ fuel ih =>
    by_cases hlt : nr < maxnr
    · rw [findIosz_step hlt] at h ⊢
      split
      · rename_i hdiv
        exact ⟨nr, Nat.le_refl nr, hlt, hdiv, rfl⟩
      · rename_i hnot
        rw [if_neg hnot] at h
        obtain ⟨n, hn, hmax, hdiv, heq⟩ := ih h
        exact ⟨n, by omega, hmax, hdiv, heq⟩
    · rw [findIosz, if_neg hlt] at h
      exact absurd rfl h

/-- Where there is a divider, one is found. -/
theorem findIosz_complete {blocksize maxnr fuel nr n : Nat} (hbs : maxnr ≤ blocksize)
    (hpos : 0 < nr) (hfuel : maxnr ≤ nr + fuel) (hn : nr ≤ n) (hmax : n < maxnr)
    (hdiv : Divider blocksize n) : findIosz blocksize maxnr fuel nr ≠ 0 := by
  induction fuel generalizing nr with
  | zero => omega
  | succ fuel ih =>
    rw [findIosz_step (by omega)]
    split
    · exact (Nat.div_pos (by omega) hpos).ne'
    · rename_i hnot
      have hne : nr ≠ n := fun heq => hnot (heq ▸ hdiv)
      exact ih (Nat.succ_pos nr) (by omega) (by omega)

/-! ## The branches -/

variable {r : Request}

theorem transfer_small (reader : Reader) (h : r.Accepted) (hreq : r.blocksize * r.nblock < 8 * MB) :
    r.transfer reader = .ok ⟨r.blocksize, 32 * MB / r.blocksize⟩ := by
  unfold Request.transfer
  dsimp only
  rw [if_neg h.pos.ne', if_neg (Nat.not_lt.mpr h.small), if_pos hreq]

theorem transfer_search (reader : Reader) (h : r.Accepted)
    (hreq : 8 * MB ≤ r.blocksize * r.nblock) {iosz : Nat}
    (hiosz : iosz = findIosz r.blocksize (r.blocksize / 1024) (r.blocksize / 1024)
      (max (r.blocksize / (8 * MB)) 1)) :
    (iosz ≠ 0 → r.transfer reader = .ok ⟨iosz, r.nblock⟩) ∧
      (iosz = 0 → ∀ t, r.transfer reader ≠ .ok t) := by
  unfold Request.transfer
  dsimp only
  rw [if_neg h.pos.ne', if_neg (Nat.not_lt.mpr h.small), if_neg (Nat.not_lt.mpr hreq), ← hiosz]
  refine ⟨fun hne => if_neg hne, fun hzero t => ?_⟩
  rw [if_pos hzero]
  intro heq
  cases heq

/-- A size that suits comes from a divider. -/
theorem divider_of_suits {blocksize iosz : Nat} (h : Suits blocksize iosz) (hpos : 0 < blocksize) :
    ∃ n, 0 < n ∧ n * iosz = blocksize ∧ Divider blocksize n := by
  obtain ⟨n, hn⟩ := h.divides
  have hiosz : 0 < iosz := Nat.pos_of_ne_zero fun hzero => by
    rw [hzero, Nat.zero_mul] at hn
    omega
  have hnpos : 0 < n := Nat.pos_of_ne_zero fun hzero => by
    rw [hzero, Nat.mul_zero] at hn
    omega
  refine ⟨n, hnpos, by rw [Nat.mul_comm, hn], ?_, ?_⟩
  · rw [hn, Nat.mul_mod_left]
  · rw [hn, Nat.mul_div_cancel _ hnpos]
    exact Nat.mod_eq_zero_of_dvd h.eight

theorem suits_of_divider {blocksize n : Nat} (h : Divider blocksize n)
    (hbelow : blocksize < n * (8 * MB)) : Suits blocksize (blocksize / n) where
  divides := Nat.div_dvd_of_dvd (Nat.dvd_of_mod_eq_zero h.1)
  eight := Nat.dvd_of_mod_eq_zero h.2
  below := Nat.div_lt_of_lt_mul hbelow

/-- Below 2048 bytes nothing is tried. -/
theorem right_below_limit (h : r.Accepted) (hreq : 8 * MB ≤ r.blocksize * r.nblock)
    (hlimit : r.blocksize < 8 * MB) :
    r.Right reader ↔ ¬(1024 ≤ r.blocksize ∧ r.blocksize < 2048) := by
  have hnr : max (r.blocksize / (8 * MB)) 1 = 1 := by
    rw [Nat.div_eq_of_lt hlimit]
    rfl
  have hwhole : Suits r.blocksize r.blocksize :=
    ⟨Nat.dvd_refl _, Nat.dvd_of_mod_eq_zero r.blocksize_mod, hlimit⟩
  have hone : Divider r.blocksize 1 := ⟨Nat.mod_one _, by rw [Nat.div_one]; exact r.blocksize_mod⟩
  obtain ⟨hfound, hnone⟩ := transfer_search reader h hreq rfl
  rw [hnr] at hfound hnone
  by_cases hmany : 2048 ≤ r.blocksize
  · have hne : findIosz r.blocksize (r.blocksize / 1024) (r.blocksize / 1024) 1 ≠ 0 :=
      findIosz_complete (by omega) Nat.one_pos (by omega) (Nat.le_refl 1) (by omega) hone
    refine iff_of_true ⟨fun t ht => ?_, fun _ _ _ => ⟨_, hfound hne⟩⟩ (by omega)
    obtain ⟨n, hn, -, hdiv, heq⟩ := findIosz_sound hne
    rw [hfound hne] at ht
    obtain rfl := Except.ok.inj ht
    dsimp only
    rw [heq]
    refine suits_of_divider hdiv (Nat.lt_of_lt_of_le hlimit ?_)
    exact Nat.le_mul_of_pos_left (8 * MB) (show 0 < n by omega)
  · have hzero : findIosz r.blocksize (r.blocksize / 1024) (r.blocksize / 1024) 1 = 0 := by
      by_contra hne
      obtain ⟨n, hn, hmax, -⟩ := findIosz_sound hne
      omega
    constructor
    · rintro hright ⟨hlow, -⟩
      obtain ⟨t, ht⟩ := hright.found r.blocksize hlow hwhole
      exact hnone hzero t ht
    · intro hnot
      refine ⟨fun t ht => absurd ht (hnone hzero t), fun iosz hlow hsuits => ?_⟩
      have hle := Nat.le_of_dvd h.pos hsuits.divides
      omega

/-- From the limit on, the divider that is tried first gives a size that is not below it. -/
theorem right_above_limit (h : r.Accepted) (hlimit : 8 * MB ≤ r.blocksize) :
    r.Right reader ↔ ¬Divider r.blocksize (r.blocksize / (8 * MB)) := by
  have hreq : 8 * MB ≤ r.blocksize * r.nblock :=
    Nat.le_trans hlimit (Nat.le_mul_of_pos_right _ r.nblock_pos)
  have hle : r.blocksize ≤ 128 * MB :=
    Nat.le_trans (Nat.le_mul_of_pos_right _ r.nblock_pos) h.small
  have hMB : MB = 1048576 := rfl
  rw [hMB] at hlimit hle
  have hnr : max (r.blocksize / (8 * MB)) 1 = r.blocksize / (8 * MB) := by
    rw [hMB]
    omega
  obtain ⟨hfound, hnone⟩ := transfer_search reader h hreq rfl
  rw [hnr] at hfound hnone
  have hcomplete {n : Nat} (hn : r.blocksize / (8 * MB) ≤ n) (hmax : n < r.blocksize / 1024)
      (hdiv : Divider r.blocksize n) :
      findIosz r.blocksize (r.blocksize / 1024) (r.blocksize / 1024)
        (r.blocksize / (8 * MB)) ≠ 0 :=
    findIosz_complete (by omega) (by rw [hMB]; omega) (by omega) hn hmax hdiv
  constructor
  · intro hright hdiv
    have hne := hcomplete (Nat.le_refl _) (by rw [hMB]; omega) hdiv
    have hsuits := hright.suits _ (hfound hne)
    have hfirst : findIosz r.blocksize (r.blocksize / 1024) (r.blocksize / 1024)
        (r.blocksize / (8 * MB)) = r.blocksize / (r.blocksize / (8 * MB)) := by
      obtain ⟨fuel, hfuel⟩ : ∃ fuel, r.blocksize / 1024 = fuel + 1 :=
        ⟨r.blocksize / 1024 - 1, by omega⟩
      nth_rewrite 2 [hfuel]
      rw [findIosz_step (by rw [hMB]; omega), if_pos hdiv]
    have hbelow := hsuits.below
    dsimp only at hbelow
    rw [hfirst] at hbelow
    have hge : 8 * MB ≤ r.blocksize / (r.blocksize / (8 * MB)) :=
      (Nat.le_div_iff_mul_le (by rw [hMB]; omega)).mpr (Nat.mul_div_le _ _)
    omega
  · intro hnot
    refine ⟨fun t ht => ?_, fun iosz hlow hsuits => ?_⟩
    · by_cases hzero : findIosz r.blocksize (r.blocksize / 1024) (r.blocksize / 1024)
          (r.blocksize / (8 * MB)) = 0
      · exact absurd ht (hnone hzero t)
      · obtain ⟨n, hn, -, hdiv, heq⟩ := findIosz_sound hzero
        rw [hfound hzero] at ht
        obtain rfl := Except.ok.inj ht
        dsimp only
        rw [heq]
        have hlt : r.blocksize / (8 * MB) < n :=
          Nat.lt_of_le_of_ne hn fun heq => hnot (heq ▸ hdiv)
        exact suits_of_divider hdiv
          ((Nat.div_lt_iff_lt_mul (by decide)).mp hlt)
    · obtain ⟨n, hn, hmul, hdiv⟩ := divider_of_suits hsuits h.pos
      have hge : r.blocksize / (8 * MB) < n :=
        (Nat.div_lt_iff_lt_mul (by decide)).mpr
          (hmul ▸ Nat.mul_lt_mul_of_pos_left hsuits.below hn)
      have hmax : n ≤ r.blocksize / 1024 :=
        (Nat.le_div_iff_mul_le (by decide)).mpr (hmul ▸ Nat.mul_le_mul_left n hlow)
      rcases Nat.lt_or_eq_of_le hmax with hlt | heq
      · exact ⟨_, hfound (hcomplete hge.le hlt hdiv)⟩
      · -- of 1024 bytes there is no other number than the limit, but then 128 divides as well
        have hexact : iosz = 1024 := by
          by_contra hne
          have hmore : n * 1025 ≤ r.blocksize := hmul ▸ Nat.mul_le_mul_left n (by omega)
          omega
        rw [hexact] at hmul
        refine ⟨_, hfound (hcomplete (n := 128) (by rw [hMB]; omega) (by omega) ⟨?_, ?_⟩)⟩
        · omega
        · omega

/-! ## All of them -/

/-- The search is right if and only if a block is below the limit of the StreamStor, or the first
divider does not fit, and a block has at least two times 1024 bytes or less than 1024, or few bytes
are asked for. -/
theorem transfer_right_iff (reader : Reader) (r : Request) (h : r.Accepted) :
    r.Right reader ↔
      (8 * MB ≤ r.blocksize → ¬r.blocksize / (8 * MB) * 8 ∣ r.blocksize) ∧
        (8 * MB ≤ r.blocksize * r.nblock → ¬(1024 ≤ r.blocksize ∧ r.blocksize < 2048)) := by
  have hMB : MB = 1048576 := rfl
  by_cases hlimit : 8 * MB ≤ r.blocksize
  · have hdivider : Divider r.blocksize (r.blocksize / (8 * MB)) ↔
        r.blocksize / (8 * MB) * 8 ∣ r.blocksize := by
      constructor
      · intro hdiv
        have hdvd := Nat.mul_dvd_mul_left (r.blocksize / (8 * MB)) (Nat.dvd_of_mod_eq_zero hdiv.2)
        rwa [Nat.mul_div_cancel' (Nat.dvd_of_mod_eq_zero hdiv.1)] at hdvd
      · intro hdvd
        refine ⟨Nat.mod_eq_zero_of_dvd (Nat.dvd_trans (Nat.dvd_mul_right _ _) hdvd), ?_⟩
        exact Nat.mod_eq_zero_of_dvd (Nat.dvd_div_of_mul_dvd hdvd)
    rw [right_above_limit h hlimit, hdivider]
    refine ⟨fun hnot => ⟨fun _ => hnot, fun _ => ?_⟩, fun hboth => hboth.1 hlimit⟩
    rw [hMB] at hlimit
    omega
  · have hbelow := Nat.not_le.mp hlimit
    rcases Nat.lt_or_ge (r.blocksize * r.nblock) (8 * MB) with hreq | hreq
    · have hok := transfer_small reader h hreq
      refine iff_of_true ⟨fun t ht => ?_, fun _ _ _ => ⟨_, hok⟩⟩
        ⟨fun hle => absurd hle hlimit, fun hle => absurd hle (Nat.not_le.mpr hreq)⟩
      rw [hok] at ht
      obtain rfl := Except.ok.inj ht
      exact ⟨Nat.dvd_refl _, Nat.dvd_of_mod_eq_zero r.blocksize_mod, hbelow⟩
    · rw [right_below_limit h hreq hbelow]
      exact ⟨fun hnot => ⟨fun hle => absurd hle hlimit, fun _ => hnot⟩, fun hboth => hboth.2 hreq⟩

/-- Blocks of 64 kB, as many as are usual. -/
def usual : Request := ⟨65536, 128, by decide, by decide, by decide, by decide⟩

theorem usual_right_iff :
    usual.Accepted ∧ (usual.Right .diskreader ↔
      (8 * MB ≤ usual.blocksize → ¬usual.blocksize / (8 * MB) * 8 ∣ usual.blocksize) ∧
        (8 * MB ≤ usual.blocksize * usual.nblock →
          ¬(1024 ≤ usual.blocksize ∧ usual.blocksize < 2048))) :=
  ⟨⟨by decide, by decide⟩, transfer_right_iff .diskreader usual ⟨by decide, by decide⟩⟩

theorem limitBlocks_pos : 0 < 8 := by decide

/-- Blocks of 8 MB, which are asked for whole. -/
def limitBlocks : Request := ⟨8388608, 8, by decide, by decide, by decide, limitBlocks_pos⟩

/-- Blocks of 1504 bytes, for which no size is found. -/
def shortBlocks : Request := ⟨1504, 8192, by decide, by decide, by decide, by decide⟩

theorem limitBlocks_wrong :
    (limitBlocks.Accepted ∧ limitBlocks.transfer .fiforeader = .ok ⟨8388608, 8⟩ ∧
      ¬limitBlocks.Right .fiforeader) ∧
    shortBlocks.Accepted ∧ Suits shortBlocks.blocksize 1504 ∧ ¬shortBlocks.Right .fiforeader := by
  have hlimit : limitBlocks.transfer .fiforeader = .ok ⟨8388608, 8⟩ := rfl
  have hshort : ∀ t, shortBlocks.transfer .fiforeader ≠ .ok t := fun t heq => by cases heq
  have hsuits : Suits shortBlocks.blocksize 1504 := ⟨by decide, by decide, by decide⟩
  refine ⟨⟨⟨by decide, by decide⟩, hlimit, fun hright => ?_⟩, ⟨by decide, by decide⟩, hsuits,
    fun hright => ?_⟩
  · exact absurd (hright.suits _ hlimit).below (by decide)
  · obtain ⟨t, ht⟩ := hright.found 1504 (by decide) hsuits
    exact hshort t ht

end Jive5ab.Streamstor
