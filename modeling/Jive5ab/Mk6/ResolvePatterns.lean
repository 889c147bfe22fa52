import Jive5ab.Lib.Expansion
import Jive5ab.Mk6.Groups

/-! # Resolving groups to patterns

`resolvePatterns` of `mk6info.cc`: names are looked up, round after round, until only
patterns are left. -/
namespace Jive5ab.Mk6.Groups

open Std Relation Mountpoint Lib.OrdMap Lib.Expansion

/-! ## The loop -/

/-- The loop of `resolvePatterns` for at most `fuel` rounds; which of the names that are not
patterns comes first is left to `std::partition`. -/
def resolveLoop (lookup : Text → Except String (List Text)) :
    Nat → TreeSet Text → List Text → Option (Except String (List Text))
  | 0, _, _ => none
  | fuel + 1, accumulator, remaining =>
    if remaining = [] then some (.ok accumulator.toList)
    else
      let direct := remaining.filter isValidPattern
      match Lib.Expansion.expand isValidPattern lookup remaining with
      | .error e => some (.error e)
      | .ok tmp => resolveLoop lookup fuel (direct.foldl (fun s p => s.insert p) accumulator) tmp

def resolvePatterns (fuel : Nat) (eMSN : Nat → Nat → Option Text) (pl : List Text)
    (userGrps : Groupdefs) : Option (Except String (List Text)) :=
  match findMountedModules eMSN with
  | .error e => some (.error e)
  | .ok msns => resolveLoop (patternLookup userGrps msns) fuel ∅ pl

/-! ## What the names stand for -/

section Meaning

variable (userGrps msns : Groupdefs)

def IsGroup (name : Text) : Prop :=
  name ≠ noMountpoint ∧
    (isBuiltin name = true ∨ userGrps.contains name = true ∨ msns.contains (toupper name) = true)

/-- `p` is in the list that the group `name` is. -/
def StandsFor (name p : Text) : Prop :=
  IsGroup userGrps msns name ∧ ∃ l, patternLookup userGrps msns name = .ok l ∧ p ∈ l

def Named (pl : List Text) (p : Text) : Prop :=
  ∃ name ∈ pl, ReflTransGen (StandsFor userGrps msns) name p

end Meaning

/-- There is a result after some number of rounds, and it is what is named and is no group. -/
def Resolved (eMSN : Nat → Nat → Option Text) (pl : List Text) (userGrps : Groupdefs) : Prop :=
  ∃ msns fuel rv, findMountedModules eMSN = .ok msns ∧
    resolvePatterns fuel eMSN pl userGrps = some (.ok rv) ∧
    ∀ p, p ∈ rv ↔ Named userGrps msns pl p ∧ ¬ IsGroup userGrps msns p

/-! ## Looking up -/

section Lookup

open Lib Ere

theorem digit_of_inRanges {c : Char} (h : inRanges [('1', '4'), ('4', '4')] c = true) :
    c ∈ ['1', '2', '3', '4'] := by
  have hval : 49 ≤ c.toNat ∧ c.toNat ≤ 52 := by
    simp only [inRanges, List.any_cons, List.any_nil, Bool.or_false, Bool.or_eq_true,
      Bool.and_eq_true, decide_eq_true_eq, UInt32.le_iff_toNat_le] at h
    simp only [Char.toNat]
    rcases h with h | h
    · exact h
    · exact ⟨Nat.le_trans (by decide) h.1, h.2⟩
  have hcases : c.toNat = 49 ∨ c.toNat = 50 ∨ c.toNat = 51 ∨ c.toNat = 52 := by omega
  rw [← Char.ofNat_toNat c]
  rcases hcases with h | h | h | h <;> rw [h] <;> decide

theorem rxMk6group_spec {groupid : Text} (h : matches? rxMk6group groupid = true) :
    groupid ≠ [] ∧ ∀ c ∈ groupid, c ∈ ['1', '2', '3', '4'] := by
  have hcompile : compile rxMk6group =
      some (seq [.bol, plus (.set false [('1', '4'), ('4', '4')]), .eol]) := by decide
  rw [matches?, hcompile, Option.any_some, found_bol] at h
  obtain ⟨k', hk'⟩ := h
  rw [mem_run_cons] at hk'
  obtain ⟨m, hm, hend⟩ := hk'
  rw [mem_run_plus rfl] at hm
  obtain ⟨u, rest, hu, hne, hdigits, rfl⟩ := hm
  rw [run_seq_one, mem_run_eol] at hend
  have hrest : rest = [] := hend.1
  have hu : groupid = u := by rw [← List.append_nil u, ← hrest]; exact hu
  subst hu
  refine ⟨hne, fun c hc => digit_of_inRanges ?_⟩
  simpa using hdigits c hc

theorem builtinGroupdefs_module {c : Char} (hc : c ∈ ['1', '2', '3', '4']) :
    ∃ pattern, builtinGroupdefs[[c]]? = some [pattern] := by
  simp only [List.mem_cons, List.not_mem_nil, or_false] at hc
  rcases hc with rfl | rfl | rfl | rfl <;> exact ⟨_, rfl⟩

theorem builtin_ne_nil {groupid : Text} {patterns : List Text}
    (h : builtinGroupdefs[groupid]? = some patterns) : patterns ≠ [] := by
  have hall : builtinGroupdefs.toList.all (fun e => e.2 != []) = true := by decide
  have hmem := TreeMap.mem_toList_iff_getElem?_eq_some.mpr h
  simpa using List.all_eq_true.mp hall _ hmem

end Lookup

/-- The internal inconsistency is none. -/
theorem patternOfModules_ok {groupid : Text} (h : ∀ c ∈ groupid, c ∈ ['1', '2', '3', '4'])
    (rv : List Text) : ∃ l, patternOfModules groupid rv = .ok l ∧
      (groupid ≠ [] ∨ rv ≠ [] → l ≠ []) := by
  induction groupid generalizing rv with
  | nil => exact ⟨rv, rfl, by simp⟩
  | cons c rest ih =>
    rw [List.forall_mem_cons] at h
    obtain ⟨pattern, hpattern⟩ := builtinGroupdefs_module h.1
    obtain ⟨l, hl, hne⟩ := ih h.2 ([pattern] ++ rv)
    rw [patternOfModules, hpattern]
    exact ⟨l, hl, fun _ => hne (.inr (by simp))⟩

theorem patternOf_spec (groupid : Text) :
    ∃ l, patternOf groupid = .ok l ∧ (l ≠ [] ↔ isBuiltin groupid = true) := by
  unfold patternOf isBuiltin
  rw [TreeMap.contains_eq_isSome_getElem?]
  cases hfound : builtinGroupdefs[groupid]? with
  | some patterns => exact ⟨patterns, rfl, by simp [builtin_ne_nil hfound]⟩
  | none =>
    cases hmodules : matches? rxMk6group groupid with
    | false => exact ⟨[], rfl, by simp⟩
    | true =>
      obtain ⟨hne, hdigits⟩ := rxMk6group_spec hmodules
      obtain ⟨l, hl, hl'⟩ := patternOfModules_ok hdigits []
      exact ⟨l, hl, by simp [hl' (.inl hne)]⟩

theorem patternLookup_of {dict1 dict2 : Groupdefs} {grpdef : Text} {builtin : List Text}
    (h : patternOf grpdef = .ok builtin) : patternLookup dict1 dict2 grpdef =
      if builtin ≠ [] then .ok builtin
      else match dict1[grpdef]?, dict2[toupper grpdef]? with
        | some patterns, _ => .ok patterns
        | none, some patterns => .ok patterns
        | none, none =>
          .error s!" - group definition '{String.ofList grpdef}' not found in dictionaries" := by
  rw [patternLookup, h]
  rfl

/-- Any group can be looked up, and nothing else. -/
theorem patternLookup_ok_iff {dict1 dict2 : Groupdefs} {grpdef : Text} :
    (∃ l, patternLookup dict1 dict2 grpdef = .ok l) ↔
      isBuiltin grpdef = true ∨ dict1.contains grpdef = true ∨
        dict2.contains (toupper grpdef) = true := by
  obtain ⟨builtin, hbuiltin, hne⟩ := patternOf_spec grpdef
  rw [patternLookup_of hbuiltin, ← hne, TreeMap.contains_eq_isSome_getElem?,
    TreeMap.contains_eq_isSome_getElem?]
  by_cases hnil : builtin = []
  · cases h1 : dict1[grpdef]? with
    | some patterns => simp [hnil]
    | none => cases h2 : dict2[toupper grpdef]? <;> simp [hnil]
  · simp [hnil]

/-! ## Everything that a name can stand for -/

def values (groups : Groupdefs) : List Text := groups.toList.flatMap fun e => e.2

theorem mem_values {groups : Groupdefs} {name p : Text} {l : List Text}
    (h : groups[name]? = some l) (hp : p ∈ l) : p ∈ values groups :=
  List.mem_flatMap.mpr ⟨(name, l), TreeMap.mem_toList_iff_getElem?_eq_some.mpr h, hp⟩

theorem mem_patternOfModules {groupid p : Text} {rv l : List Text}
    (h : patternOfModules groupid rv = .ok l) (hp : p ∈ l) :
    p ∈ rv ∨ p ∈ values builtinGroupdefs := by
  induction groupid generalizing rv with
  | nil =>
    obtain rfl : rv = l := Except.ok.inj h
    exact .inl hp
  | cons c rest ih =>
    rw [patternOfModules] at h
    split at h
    · cases h
    · rename_i patterns hpatterns
      rcases ih h with hmem | hmem
      · rcases List.mem_append.mp hmem with hmem | hmem
        · exact .inr (mem_values hpatterns hmem)
        · exact .inl hmem
      · exact .inr hmem

theorem mem_patternOf {groupid p : Text} {l : List Text} (h : patternOf groupid = .ok l)
    (hp : p ∈ l) : p ∈ values builtinGroupdefs := by
  unfold patternOf at h
  split at h
  · rename_i patterns hpatterns
    obtain rfl : patterns = l := Except.ok.inj h
    exact mem_values hpatterns hp
  · split at h
    · simpa using mem_patternOfModules h hp
    · obtain rfl : [] = l := Except.ok.inj h
      cases hp

theorem mem_patternLookup {dict1 dict2 : Groupdefs} {grpdef p : Text} {l : List Text}
    (h : patternLookup dict1 dict2 grpdef = .ok l) (hp : p ∈ l) :
    p ∈ values builtinGroupdefs ++ values dict1 ++ values dict2 := by
  obtain ⟨builtin, hbuiltin, -⟩ := patternOf_spec grpdef
  rw [patternLookup_of hbuiltin] at h
  rw [List.mem_append, List.mem_append]
  split at h
  · obtain rfl : builtin = l := Except.ok.inj h
    exact .inl (.inl (mem_patternOf hbuiltin hp))
  · cases h1 : dict1[grpdef]? with
    | some patterns =>
      rw [h1] at h
      obtain rfl : patterns = l := Except.ok.inj h
      exact .inl (.inr (mem_values h1 hp))
    | none =>
      cases h2 : dict2[toupper grpdef]? with
      | some patterns =>
        rw [h1, h2] at h
        obtain rfl : patterns = l := Except.ok.inj h
        exact .inr (mem_values h2 hp)
      | none =>
        rw [h1, h2] at h
        cases h

/-! ## What a run gives -/

abbrev Reached (userGrps msns : Groupdefs) : List Text → Text → Prop :=
  Reach isValidPattern (patternLookup userGrps msns)

theorem reached_finite (userGrps msns : Groupdefs) (pl : List Text) :
    {p | Reached userGrps msns pl p}.Finite := by
  apply (pl ++ (values builtinGroupdefs ++ values userGrps ++ values msns)).finite_toSet.subset
  rintro p ⟨name, hname, hpath⟩
  rcases hpath.cases_tail with rfl | ⟨q, -, -, l, hl, hp⟩
  · exact List.mem_append_left _ hname
  · exact List.mem_append_right _ (mem_patternLookup hl hp)

section Loop

variable {lookup : Text → Except String (List Text)}

theorem ends_of_resolveLoop {fuel : Nat} {accumulator : TreeSet Text} {remaining rv : List Text}
    (h : resolveLoop lookup fuel accumulator remaining = some (.ok rv)) :
    Ends isValidPattern lookup remaining := by
  induction fuel generalizing accumulator remaining with
  | zero => cases h
  | succ fuel ih =>
    rw [resolveLoop] at h
    split at h
    · rename_i hnil
      rw [hnil]
      exact .done
    · cases hexpand : Lib.Expansion.expand isValidPattern lookup remaining with
      | error e =>
        rw [hexpand] at h
        cases h
      | ok tmp =>
        rw [hexpand] at h
        exact .round hexpand (ih h)

theorem resolveLoop_of_ends {remaining : List Text} (h : Ends isValidPattern lookup remaining)
    (accumulator : TreeSet Text) :
    ∃ fuel rv, resolveLoop lookup fuel accumulator remaining = some (.ok rv) := by
  induction h generalizing accumulator with
  | done => exact ⟨1, accumulator.toList, rfl⟩
  | @round remaining tmp hexpand _ ih =>
    by_cases hnil : remaining = []
    · exact ⟨1, accumulator.toList, by rw [resolveLoop, if_pos hnil]⟩
    · obtain ⟨fuel, rv, hloop⟩ :=
        ih ((remaining.filter isValidPattern).foldl (fun s p => s.insert p) accumulator)
      refine ⟨fuel + 1, rv, ?_⟩
      rw [resolveLoop, if_neg hnil, hexpand]
      exact hloop

/-- The result has the patterns that are reached from what remains. -/
theorem mem_resolveLoop {fuel : Nat} {accumulator : TreeSet Text} {remaining rv : List Text}
    (h : resolveLoop lookup fuel accumulator remaining = some (.ok rv)) {p : Text} :
    p ∈ rv ↔ p ∈ accumulator ∨
      Reach isValidPattern lookup remaining p ∧ isValidPattern p = true := by
  induction fuel generalizing accumulator remaining with
  | zero => cases h
  | succ fuel ih =>
    rw [resolveLoop] at h
    split at h
    · rename_i hnil
      obtain rfl : accumulator.toList = rv := Except.ok.inj (Option.some.inj h)
      simp [hnil, Reach]
    · cases hexpand : Lib.Expansion.expand isValidPattern lookup remaining with
      | error e =>
        rw [hexpand] at h
        cases h
      | ok tmp =>
        rw [hexpand] at h
        rw [ih h, mem_insertAll, List.mem_filter, reach_expand hexpand]
        tauto

end Loop

/-! ## Groups and patterns apart -/

section Meaning

variable {userGrps msns : Groupdefs} {pl : List Text}

theorem isValidPattern_noMountpoint : isValidPattern noMountpoint = true :=
  isValidPattern_iff.mpr (.inl rfl)

theorem isGroup_iff {name : Text} : IsGroup userGrps msns name ↔
    name ≠ noMountpoint ∧ ∃ l, patternLookup userGrps msns name = .ok l := by
  rw [patternLookup_ok_iff]
  rfl

theorem standsFor_of_step {name p : Text}
    (h : Step isValidPattern (patternLookup userGrps msns) name p) :
    StandsFor userGrps msns name p := by
  obtain ⟨hname, l, hl, hp⟩ := h
  refine ⟨isGroup_iff.mpr ⟨?_, l, hl⟩, l, hl, hp⟩
  rintro rfl
  rw [isValidPattern_noMountpoint] at hname
  cases hname

theorem Named.of_reached {p : Text} (h : Reached userGrps msns pl p) :
    Named userGrps msns pl p := by
  obtain ⟨name, hname, hpath⟩ := h
  exact ⟨name, hname, ReflTransGen.mono (fun _ _ => standsFor_of_step) _ _ hpath⟩

/-- What is reached is a pattern or a group, and not both. -/
def Apart (userGrps msns : Groupdefs) (pl : List Text) : Prop :=
  ∀ p, Reached userGrps msns pl p → (isValidPattern p = true ↔ ¬ IsGroup userGrps msns p)

theorem Apart.step (h : Apart userGrps msns pl) {p q : Text} (hp : Reached userGrps msns pl p)
    (hq : StandsFor userGrps msns p q) :
    Step isValidPattern (patternLookup userGrps msns) p q := by
  obtain ⟨hgroup, hl⟩ := hq
  refine ⟨?_, hl⟩
  rw [← Bool.not_eq_true]
  exact fun hvalid => (h p hp).mp hvalid hgroup

theorem Apart.reached (h : Apart userGrps msns pl) {p : Text} (hp : Named userGrps msns pl p) :
    Reached userGrps msns pl p := by
  obtain ⟨name, hname, hpath⟩ := hp
  induction hpath with
  | refl => exact reach_of_mem hname
  | tail _ hstep ih => exact ih.step (h.step ih hstep)

/-- The whole of a path is reached, so it is a path of the lookups as well. -/
theorem Apart.path (h : Apart userGrps msns pl) {p q : Text} (hp : Reached userGrps msns pl p)
    (hpath : TransGen (StandsFor userGrps msns) p q) :
    TransGen (Step isValidPattern (patternLookup userGrps msns)) p q ∧
      Reached userGrps msns pl q := by
  induction hpath with
  | single hstep => exact ⟨.single (h.step hp hstep), hp.step (h.step hp hstep)⟩
  | tail _ hstep ih =>
    have hnext := h.step ih.2 hstep
    exact ⟨ih.1.tail hnext, ih.2.step hnext⟩

end Meaning

/-! ## Where groups resolve -/

theorem resolvePatterns_of_ok {eMSN : Nat → Nat → Option Text} {msns : Groupdefs}
    (h : findMountedModules eMSN = .ok msns) (fuel : Nat) (pl : List Text) (userGrps : Groupdefs) :
    resolvePatterns fuel eMSN pl userGrps =
      resolveLoop (patternLookup userGrps msns) fuel ∅ pl := by
  rw [resolvePatterns, h]

/-- Names resolve to the patterns that they reach just when the modules can be read, everything
that is named is either a group or a pattern, and no group comes back to itself. -/
theorem resolvePatterns_iff (eMSN : Nat → Nat → Option Text) (pl : List Text)
    (userGrps : Groupdefs) :
    Resolved eMSN pl userGrps ↔ ∃ msns, findMountedModules eMSN = .ok msns ∧
      (∀ p, Named userGrps msns pl p → (isValidPattern p = true ↔ ¬ IsGroup userGrps msns p)) ∧
      ∀ p, Named userGrps msns pl p → ¬ TransGen (StandsFor userGrps msns) p p := by
  constructor
  · rintro ⟨msns, fuel, rv, hmsns, hrun, hrv⟩
    rw [resolvePatterns_of_ok hmsns] at hrun
    have hends : Ends isValidPattern (patternLookup userGrps msns) pl := ends_of_resolveLoop hrun
    have hapart : Apart userGrps msns pl := by
      intro p hp
      constructor
      · intro hvalid
        have hmem : p ∈ rv := (mem_resolveLoop hrun).mpr (.inr ⟨hp, hvalid⟩)
        exact ((hrv p).mp hmem).2
      · intro hgroup
        by_contra hvalid
        have hlookup := hends.defined hp (by simpa using hvalid)
        apply hgroup
        refine isGroup_iff.mpr ⟨?_, hlookup⟩
        rintro rfl
        exact hvalid isValidPattern_noMountpoint
    refine ⟨msns, hmsns, fun p hp => hapart p (hapart.reached hp), ?_⟩
    intro p hp hcycle
    exact hends.acyclic (hapart.reached hp) (hapart.path (hapart.reached hp) hcycle).1
  · rintro ⟨msns, hmsns, hnamed, hacyclic⟩
    have hapart : Apart userGrps msns pl := fun p hp => hnamed p (.of_reached hp)
    have hends : Ends isValidPattern (patternLookup userGrps msns) pl := by
      rw [ends_iff (reached_finite userGrps msns pl)]
      constructor
      · intro p hp hvalid
        have hgroup : IsGroup userGrps msns p := by
          by_contra hgroup
          rw [(hapart p hp).mpr hgroup] at hvalid
          cases hvalid
        exact (isGroup_iff.mp hgroup).2
      · intro p hp hcycle
        exact hacyclic p (.of_reached hp) (TransGen.mono (fun _ _ => standsFor_of_step) _ _ hcycle)
    obtain ⟨fuel, rv, hrun⟩ := resolveLoop_of_ends hends ∅
    refine ⟨msns, fuel, rv, hmsns, (resolvePatterns_of_ok hmsns fuel pl userGrps).trans hrun, ?_⟩
    intro p
    rw [mem_resolveLoop hrun]
    constructor
    · rintro (hempty | ⟨hp, hvalid⟩)
      · simp at hempty
      · exact ⟨.of_reached hp, (hapart p hp).mp hvalid⟩
    · rintro ⟨hp, hgroup⟩
      exact .inr ⟨hapart.reached hp, (hnamed p hp).mpr hgroup⟩

/-- `group_def = define : A : A`, and then `A` -/
def selfCommands : List (Option String × List Text) :=
  [(none, ["group_def".toList, "define".toList, ['A'], ['A']])]

theorem resolvePatterns_selfGroup :
    ¬ ∀ (commands : List (Option String × List Text)) (eMSN : Nat → Nat → Option Text)
      (pl : List Text), Resolved eMSN pl (defined commands) := by
  intro h
  obtain ⟨msns, fuel, rv, hmsns, hrun, -⟩ := h selfCommands (fun _ _ => none) [['A']]
  obtain rfl : ∅ = msns := Except.ok.inj hmsns
  rw [resolvePatterns_of_ok hmsns] at hrun
  have hstep : Step isValidPattern (patternLookup (defined selfCommands) ∅) ['A'] ['A'] :=
    ⟨by decide, [['A']], by decide, by decide⟩
  exact (ends_of_resolveLoop hrun).acyclic (reach_of_mem (List.mem_singleton.mpr rfl))
    (.single hstep)

end Jive5ab.Mk6.Groups
