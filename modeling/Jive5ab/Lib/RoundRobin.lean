import Jive5ab.Lib.OrdMap
import Mathlib.Data.List.Perm.Basic

/-! # Round robin over queues

Elements go to the queue of their key; then, turn after turn, every queue gives
up its first element. A queue that is empty is not in the map, so whatever is in
the map has something to give. The order that comes out is a permutation of what
went in, whatever the keys are. -/
namespace Jive5ab.Lib.RoundRobin
open Std

variable {κ α : Type} [Ord κ]

/-- A queue with something in it. -/
structure Queue (α : Type) where
  front : α
  rest : List α
  deriving DecidableEq

def Queue.toList (q : Queue α) : List α := q.front :: q.rest

/-- `push_back`, on a queue that may not be there yet. -/
def pushBack (q : Option (Queue α)) (a : α) : Queue α :=
  match q with
  | none => ⟨a, []⟩
  | some q => ⟨q.front, q.rest ++ [a]⟩

/-- `pop_front`: nothing is kept of a queue that becomes empty. -/
def Queue.popFront (q : Queue α) : Option (Queue α) :=
  match q.rest with
  | [] => none
  | b :: bs => some ⟨b, bs⟩

/-- All queues, in the order of their keys. -/
def contents (queues : TreeMap κ (Queue α)) : List α := queues.toList.flatMap fun e => e.2.toList

def group (key : α → κ) (l : List α) : TreeMap κ (Queue α) :=
  l.foldl (fun queues a => queues.insert (key a) (pushBack queues[key a]? a)) ∅

/-- One element of each queue. -/
def fronts (queues : TreeMap κ (Queue α)) : List α := queues.toList.map fun e => e.2.front

def popAll (queues : TreeMap κ (Queue α)) : TreeMap κ (Queue α) :=
  queues.filterMap fun _ q => q.popFront

/-! ## One turn -/

@[simp] theorem toList_pushBack (q : Option (Queue α)) (a : α) :
    (pushBack q a).toList = (q.toList.flatMap Queue.toList) ++ [a] := by
  cases q <;> simp [pushBack, Queue.toList]

@[simp] theorem toList_popFront (q : Queue α) :
    q.popFront.toList.flatMap Queue.toList = q.rest := by
  unfold Queue.popFront
  split <;> simp_all [Queue.toList]

theorem popAll_toList (queues : TreeMap κ (Queue α)) :
    (popAll queues).toList.flatMap (fun e => e.2.toList) = queues.toList.flatMap fun e => e.2.rest := by
  rw [popAll, TreeMap.toList_filterMap, List.filterMap_eq_flatMap_toList, List.flatMap_assoc]
  refine congrArg (fun f => List.flatMap f queues.toList) (funext fun e => ?_)
  rw [← toList_popFront e.2]
  cases e.2.popFront <;> simp

/-- A turn takes the fronts and leaves the others. -/
theorem contents_perm_turn (queues : TreeMap κ (Queue α)) :
    (contents queues).Perm (fronts queues ++ contents (popAll queues)) := by
  rw [contents, contents, popAll_toList, fronts, List.map_eq_flatMap]
  exact (List.flatMap_append_perm queues.toList (fun e => [e.2.front]) fun e => e.2.rest).symm

theorem fronts_ne_nil {queues : TreeMap κ (Queue α)} (h : queues.isEmpty = false) :
    fronts queues ≠ [] := by
  rw [fronts, ne_eq, List.map_eq_nil_iff, ← List.isEmpty_iff, TreeMap.isEmpty_toList, h]
  exact Bool.false_ne_true

theorem length_popAll_lt {queues : TreeMap κ (Queue α)} (h : ¬queues.isEmpty) :
    (contents (popAll queues)).length < (contents queues).length := by
  have hlen := (contents_perm_turn queues).length_eq
  have hpos := List.length_pos_of_ne_nil (fronts_ne_nil (Bool.eq_false_iff.mpr h))
  rw [List.length_append] at hlen
  omega

/-! ## All turns -/

/-- Turn after turn, while there are queues. -/
def takeTurns (queues : TreeMap κ (Queue α)) : List α :=
  if _h : queues.isEmpty then [] else fronts queues ++ takeTurns (popAll queues)
  termination_by (contents queues).length
  decreasing_by exact length_popAll_lt _h

theorem takeTurns_perm (queues : TreeMap κ (Queue α)) : (takeTurns queues).Perm (contents queues) := by
  rw [takeTurns]
  by_cases hempty : queues.isEmpty
  · rw [dif_pos hempty, contents, List.isEmpty_iff.mp (TreeMap.isEmpty_toList.trans hempty)]
    exact .refl _
  · rw [dif_neg hempty]
    exact ((takeTurns_perm (popAll queues)).append_left _).trans (contents_perm_turn queues).symm
  termination_by (contents queues).length
  decreasing_by exact length_popAll_lt hempty

/-! ## What goes in comes out -/

variable [TransOrd κ] [LawfulEqOrd κ] [DecidableEq κ]

theorem contents_insert_pushBack_perm (queues : TreeMap κ (Queue α)) (k : κ) (a : α) :
    (contents (queues.insert k (pushBack queues[k]? a))).Perm (contents queues ++ [a]) := by
  set others := queues.toList.filter fun e => !decide (e.1 = k) with hothers
  have hins : (queues.insert k (pushBack queues[k]? a)).toList.Perm
      ((k, pushBack queues[k]? a) :: others) := by
    refine TreeMap.toList_insert_perm.trans (.of_eq ?_)
    refine congrArg (fun p => (k, pushBack queues[k]? a) :: queues.toList.filter p) (funext fun e => ?_)
    rcases Decidable.em (e.1 = k) with rfl | hne
    · simp
    · simp [hne, Ne.symm hne]
  have hall : queues.toList.Perm ((queues[k]?).toList.map (fun q => (k, q)) ++ others) := by
    rw [← OrdMap.filter_toList]
    exact (List.filter_append_perm _ _).symm
  refine (hins.flatMap_right _).trans ?_
  refine List.Perm.trans ?_ ((hall.flatMap_right _).symm.append_right [a])
  rw [List.flatMap_cons, List.flatMap_append, List.flatMap_map, toList_pushBack, List.append_assoc,
    List.append_assoc]
  exact List.perm_append_comm.append_left _

theorem contents_group_perm (key : α → κ) (l : List α) : (contents (group key l)).Perm l := by
  have hfold (queues : TreeMap κ (Queue α)) :
      (contents (l.foldl (fun queues a => queues.insert (key a) (pushBack queues[key a]? a)) queues)).Perm
        (contents queues ++ l) := by
    induction l generalizing queues with
    | nil => rw [List.append_nil]; exact .refl _
    | cons a l ih =>
      refine (ih _).trans ?_
      rw [List.append_cons]
      exact (contents_insert_pushBack_perm queues (key a) a).append_right l
  exact hfold ∅

/-- Elements come out as they went in, up to the order. -/
theorem takeTurns_group_perm (key : α → κ) (l : List α) : (takeTurns (group key l)).Perm l :=
  (takeTurns_perm _).trans (contents_group_perm key l)

end Jive5ab.Lib.RoundRobin
