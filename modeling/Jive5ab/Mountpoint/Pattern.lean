import Jive5ab.Lib.Ere

/-! # Patterns for mountpoints

A pattern is a shell glob for an absolute path, `^/...$` around a regular expression,
or the name of no mountpoint at all. -/
namespace Jive5ab.Mountpoint
open Lib Ere

def noMountpoint : Text := ['n', 'u', 'l', 'l']

/-- `Regular_Expression::matches`; a pattern that does not compile throws. -/
def matches? (pattern text : Text) : Bool := (compile pattern).any fun r => r.found text

def rxValid : Text := "^((\\^/.*\\$)|/.*)$".toList

def isValidPattern (pattern : Text) : Bool := matches? rxValid pattern || pattern == noMountpoint

/-! ## What is valid -/

def validRegex : Ere := seq [.group 2 (seq [.chr '^', .chr '/', .star .any, .chr '$'])]

def validGlob : Ere := seq [.chr '/', .star .any]

theorem compile_rxValid :
    compile rxValid = some (seq [.bol, .group 1 (.alt validRegex validGlob), .eol]) := by
  decide

/-- Anything is matched by `.*`. -/
theorem mem_run_anything {k k' : Cursor} :
    k' ∈ run (.star .any) k ↔ ∃ u rest, k.rest = u ++ rest ∧ k' = k.moved u rest := by
  simp [mem_run_star (show Ere.any.accepts = some fun _ => true from rfl)]

theorem mem_run_alt {r s : Ere} {k k' : Cursor} :
    k' ∈ run (.alt r s) k ↔ k' ∈ run r k ∨ k' ∈ run s k := by
  rw [run, List.mem_append]

theorem validGlob_ends {text : Text} {groups : List (Nat × Text)} :
    (∃ k' ∈ run validGlob ⟨[], text, groups⟩, k'.rest = []) ↔ ∃ u, text = '/' :: u := by
  simp only [validGlob, mem_run_cons, mem_run_chr, mem_run_anything, run_seq_one]
  constructor
  · rintro ⟨k', ⟨m, ⟨rest, hrest, rfl⟩, u, rest', hu, rfl⟩, hend⟩
    exact ⟨rest, hrest⟩
  · rintro ⟨u, rfl⟩
    exact ⟨_, ⟨_, ⟨u, rfl, rfl⟩, u, [], (List.append_nil u).symm, rfl⟩, rfl⟩

theorem validRegex_ends {text : Text} {groups : List (Nat × Text)} :
    (∃ k' ∈ run validRegex ⟨[], text, groups⟩, k'.rest = []) ↔
      ∃ u, text = '^' :: '/' :: (u ++ ['$']) := by
  simp only [validRegex, mem_run_group, mem_run_cons, mem_run_chr, mem_run_anything, run_seq_one]
  constructor
  · rintro ⟨k', ⟨m, ⟨m₁, ⟨r₁, h₁, rfl⟩, m₂, ⟨r₂, h₂, rfl⟩, m₃, ⟨u, r₃, h₃, rfl⟩, r₄, h₄, rfl⟩, rfl⟩, hend⟩
    have h₁ : text = '^' :: r₁ := h₁
    have h₂ : r₁ = '/' :: r₂ := h₂
    have h₃ : r₂ = u ++ r₃ := h₃
    have h₄ : r₃ = '$' :: r₄ := h₄
    have hend : r₄ = [] := hend
    exact ⟨u, by rw [h₁, h₂, h₃, h₄, hend]⟩
  · rintro ⟨u, rfl⟩
    exact ⟨_, ⟨_, ⟨_, ⟨_, rfl, rfl⟩, _, ⟨_, rfl, rfl⟩, _, ⟨u, ['$'], rfl, rfl⟩, _, rfl, rfl⟩, rfl⟩, rfl⟩

theorem isValidPattern_iff {pattern : Text} : isValidPattern pattern = true ↔
    pattern = noMountpoint ∨ (∃ u, pattern = '/' :: u) ∨
      ∃ u, pattern = '^' :: '/' :: (u ++ ['$']) := by
  have hends : (∃ k', k' ∈ run (seq [.group 1 (.alt validRegex validGlob), .eol]) ⟨[], pattern, []⟩) ↔
      (∃ k' ∈ run validGlob ⟨[], pattern, []⟩, k'.rest = []) ∨
        ∃ k' ∈ run validRegex ⟨[], pattern, []⟩, k'.rest = [] := by
    simp only [mem_run_cons, run_seq_one, mem_run_group, mem_run_eol, mem_run_alt]
    constructor
    · rintro ⟨k', m, ⟨m', hm' | hm', rfl⟩, hend, rfl⟩
      · exact .inr ⟨m', hm', hend⟩
      · exact .inl ⟨m', hm', hend⟩
    · rintro (⟨m', hm', hend⟩ | ⟨m', hm', hend⟩)
      · exact ⟨_, _, ⟨m', .inr hm', rfl⟩, hend, rfl⟩
      · exact ⟨_, _, ⟨m', .inl hm', rfl⟩, hend, rfl⟩
  rw [isValidPattern, Bool.or_eq_true, beq_iff_eq, matches?, compile_rxValid, Option.any_some,
    found_bol, hends, validGlob_ends, validRegex_ends]
  exact or_comm

end Jive5ab.Mountpoint
