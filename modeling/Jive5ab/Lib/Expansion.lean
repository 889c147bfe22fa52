import Mathlib

/-! # Expansion of names

Names that stand for lists of names, replaced round after round until only leaves
are left. The rounds come to an end just when every name that is reached is a leaf or
stands for something, and none reaches itself. -/
namespace Jive5ab.Lib.Expansion

open Relation

variable {α ε : Type} (leaf : α → Bool) (lookup : α → Except ε (List α))

/-- What a round puts in the place of the names that are no leaves. -/
def expand : List α → Except ε (List α)
  | [] => .ok []
  | x :: xs =>
    if leaf x then expand xs
    else do
      let dereferenced ← lookup x
      let rest ← expand xs
      return dereferenced ++ rest

/-- `y` is in what `x` stands for. -/
def Step (x y : α) : Prop := leaf x = false ∧ ∃ l, lookup x = .ok l ∧ y ∈ l

def Reach (names : List α) (y : α) : Prop := ∃ x ∈ names, ReflTransGen (Step leaf lookup) x y

/-- Rounds until nothing is left. -/
inductive Ends : List α → Prop
  | done : Ends []
  | round {names next : List α} : expand leaf lookup names = .ok next → Ends next → Ends names

variable {leaf lookup}

/-! ## One round -/

theorem expand_cons_leaf {x : α} (hx : leaf x = true) (xs : List α) :
    expand leaf lookup (x :: xs) = expand leaf lookup xs := by
  simp [expand, hx]

theorem expand_cons_ok {x : α} (hx : leaf x = false) {xs next : List α} :
    expand leaf lookup (x :: xs) = .ok next ↔
      ∃ l rest, lookup x = .ok l ∧ expand leaf lookup xs = .ok rest ∧ next = l ++ rest := by
  rw [expand, hx]
  cases hl : lookup x with
  | error e => simp [bind, Except.bind]
  | ok l =>
    cases hrest : expand leaf lookup xs with
    | error e => simp [bind, Except.bind]
    | ok rest => simp [bind, Except.bind, pure, Except.pure, eq_comm]

theorem mem_expand {names next : List α} (h : expand leaf lookup names = .ok next) {y : α} :
    y ∈ next ↔ ∃ x ∈ names, Step leaf lookup x y := by
  induction names generalizing next with
  | nil =>
    obtain rfl : next = [] := (Except.ok.inj h).symm
    simp
  | cons x xs ih =>
    cases hx : leaf x with
    | true =>
      rw [expand_cons_leaf hx] at h
      simp [ih h, Step, hx]
    | false =>
      obtain ⟨l, rest, hl, hrest, rfl⟩ := (expand_cons_ok hx).mp h
      simp [ih hrest, Step, hx, hl]

theorem expand_ok_iff {names : List α} :
    (∃ next, expand leaf lookup names = .ok next) ↔
      ∀ x ∈ names, leaf x = false → ∃ l, lookup x = .ok l := by
  induction names with
  | nil => simp [expand]
  | cons x xs ih =>
    rw [List.forall_mem_cons, ← ih]
    cases hx : leaf x with
    | true => simp [expand_cons_leaf hx]
    | false =>
      constructor
      · rintro ⟨next, h⟩
        obtain ⟨l, rest, hl, hrest, -⟩ := (expand_cons_ok hx).mp h
        exact ⟨fun _ => ⟨l, hl⟩, rest, hrest⟩
      · rintro ⟨hl, rest, hrest⟩
        obtain ⟨l, hl⟩ := hl rfl
        exact ⟨l ++ rest, (expand_cons_ok hx).mpr ⟨l, rest, hl, hrest, rfl⟩⟩

theorem expand_append {xs ys nx ny : List α} (hx : expand leaf lookup xs = .ok nx)
    (hy : expand leaf lookup ys = .ok ny) : expand leaf lookup (xs ++ ys) = .ok (nx ++ ny) := by
  induction xs generalizing nx with
  | nil =>
    obtain rfl : nx = [] := (Except.ok.inj hx).symm
    simpa using hy
  | cons x xs ih =>
    cases hleaf : leaf x with
    | true =>
      rw [expand_cons_leaf hleaf] at hx
      rw [List.cons_append, expand_cons_leaf hleaf, ih hx]
    | false =>
      obtain ⟨l, rest, hl, hrest, rfl⟩ := (expand_cons_ok hleaf).mp hx
      exact (expand_cons_ok hleaf).mpr ⟨l, rest ++ ny, hl, ih hrest, List.append_assoc l rest ny⟩

/-! ## What is reached -/

theorem reach_of_mem {names : List α} {x : α} (hx : x ∈ names) : Reach leaf lookup names x :=
  ⟨x, hx, .refl⟩

theorem Reach.step {names : List α} {x y : α} (hx : Reach leaf lookup names x)
    (hy : Step leaf lookup x y) : Reach leaf lookup names y := by
  obtain ⟨n, hn, hpath⟩ := hx
  exact ⟨n, hn, hpath.tail hy⟩

theorem reach_expand {names next : List α} (h : expand leaf lookup names = .ok next) {y : α} :
    Reach leaf lookup names y ↔ y ∈ names ∨ Reach leaf lookup next y := by
  constructor
  · rintro ⟨x, hx, hpath⟩
    rcases hpath.cases_head with rfl | ⟨z, hz, hpath⟩
    · exact .inl hx
    · exact .inr ⟨z, (mem_expand h).mpr ⟨x, hx, hz⟩, hpath⟩
  · rintro (hy | ⟨z, hz, hpath⟩)
    · exact reach_of_mem hy
    · obtain ⟨x, hx, hstep⟩ := (mem_expand h).mp hz
      exact ⟨x, hx, hpath.head hstep⟩

/-! ## Where the rounds end -/

theorem Ends.append {xs ys : List α} (hx : Ends leaf lookup xs) (hy : Ends leaf lookup ys) :
    Ends leaf lookup (xs ++ ys) := by
  induction hx generalizing ys with
  | done => exact hy
  | @round xs nx hexpand hnext ih =>
    cases hy with
    | done =>
      rw [List.append_nil]
      exact .round hexpand hnext
    | @round _ ny hexpand' hnext' => exact .round (expand_append hexpand hexpand') (ih hnext')

theorem ends_of_forall {names : List α} (h : ∀ x ∈ names, Ends leaf lookup [x]) :
    Ends leaf lookup names := by
  induction names with
  | nil => exact .done
  | cons x xs ih =>
    rw [List.forall_mem_cons] at h
    exact h.1.append (ih h.2)

/-- A name ends if what it stands for does, so all names do from which every path is finite. -/
theorem ends_of_acc {names : List α} {x : α} (hx : Reach leaf lookup names x)
    (hdefined : ∀ y, Reach leaf lookup names y → leaf y = false → ∃ l, lookup y = .ok l)
    (hacc : Acc (fun y x => Step leaf lookup x y) x) : Ends leaf lookup [x] := by
  induction hacc with
  | intro x _ ih =>
    cases hleaf : leaf x with
    | true => exact .round (expand_cons_leaf hleaf []) .done
    | false =>
      obtain ⟨l, hl⟩ := hdefined x hx hleaf
      have hnext : Ends leaf lookup l := by
        apply ends_of_forall
        intro y hy
        have hstep : Step leaf lookup x y := ⟨hleaf, l, hl, hy⟩
        exact ih y hstep (hx.step hstep)
      exact .round ((expand_cons_ok hleaf).mpr ⟨l, [], hl, rfl, (List.append_nil l).symm⟩) hnext

/-- Among finitely many names paths are finite if none comes back to where it was. -/
theorem acc_of_acyclic {names : List α} (hfin : {y | Reach leaf lookup names y}.Finite)
    (hacyclic : ∀ y, Reach leaf lookup names y → ¬ TransGen (Step leaf lookup) y y) {x : α}
    (hx : Reach leaf lookup names x) : Acc (fun y x => Step leaf lookup x y) x := by
  let below (a b : {y | Reach leaf lookup names y}) : Prop := TransGen (Step leaf lookup) b.1 a.1
  have htrans : IsTrans _ below := ⟨fun _ _ _ hab hbc => TransGen.trans hbc hab⟩
  have hirrefl : Std.Irrefl below := ⟨fun a => hacyclic a.1 a.2⟩
  have : Finite {y | Reach leaf lookup names y} := hfin
  have hwf : WellFounded below := Finite.wellFounded_of_trans_of_irrefl below
  have hacc : ∀ a : {y | Reach leaf lookup names y}, Acc (fun y x => Step leaf lookup x y) a.1 := by
    intro a
    induction a using hwf.induction with
    | _ a ih =>
      refine ⟨_, fun y hy => ?_⟩
      exact ih ⟨y, Reach.step a.2 hy⟩ (.single hy)
  exact hacc ⟨x, hx⟩

theorem Ends.defined {names : List α} (h : Ends leaf lookup names) {y : α}
    (hy : Reach leaf lookup names y) (hleaf : leaf y = false) : ∃ l, lookup y = .ok l := by
  induction h with
  | done => obtain ⟨x, hx, -⟩ := hy; cases hx
  | round hexpand _ ih =>
    rcases (reach_expand hexpand).mp hy with hmem | hnext
    · exact expand_ok_iff.mp ⟨_, hexpand⟩ y hmem hleaf
    · exact ih hnext

/-- A name that reaches itself is there again in the next round. -/
theorem Ends.acyclic {names : List α} (h : Ends leaf lookup names) {y : α}
    (hy : Reach leaf lookup names y) : ¬ TransGen (Step leaf lookup) y y := by
  intro hcycle
  induction h with
  | done => obtain ⟨x, hx, -⟩ := hy; cases hx
  | @round names next hexpand _ ih =>
    rcases (reach_expand hexpand).mp hy with hmem | hnext
    · obtain ⟨z, hz, hback⟩ := TransGen.head'_iff.mp hcycle
      exact ih ⟨z, (mem_expand hexpand).mpr ⟨y, hmem, hz⟩, hback⟩
    · exact ih hnext

theorem ends_iff {names : List α} (hfin : {y | Reach leaf lookup names y}.Finite) :
    Ends leaf lookup names ↔
      (∀ y, Reach leaf lookup names y → leaf y = false → ∃ l, lookup y = .ok l) ∧
      ∀ y, Reach leaf lookup names y → ¬ TransGen (Step leaf lookup) y y := by
  constructor
  · intro h
    exact ⟨fun y hy => h.defined hy, fun y hy => h.acyclic hy⟩
  · rintro ⟨hdefined, hacyclic⟩
    apply ends_of_forall
    intro x hx
    have hreach : Reach leaf lookup names x := reach_of_mem hx
    exact ends_of_acc hreach hdefined (acc_of_acyclic hfin hacyclic hreach)

end Jive5ab.Lib.Expansion
