import Mathlib.Data.List.Basic
import Mathlib.Data.List.Induction

/-
  Lists of bounded length. The bound is a field, so a list over its limit cannot be built: `push`
  and `tryFrom` are the only ways to grow one, and both fail at the limit.
-/

namespace Moonglass.Lib

open List

/-- A list of at most `n` values. -/
structure BoundedList (α : Type) (n : Nat) where
  toList : List α
  length_le : toList.length ≤ n

namespace BoundedList

variable {α β : Type} {n : Nat}
variable {l l' : BoundedList α n} {a : α} {i : Nat}

@[ext] theorem ext {a b : BoundedList α n} (h : a.toList = b.toList) : a = b := by
  cases a; cases b; simpa using h

instance [DecidableEq α] : DecidableEq (BoundedList α n) := fun a b =>
  decidable_of_iff (a.toList = b.toList) ⟨ext, fun h => h ▸ rfl⟩

def empty : BoundedList α n := ⟨[], Nat.zero_le n⟩

def length (l : BoundedList α n) : Nat := l.toList.length

def isEmpty (l : BoundedList α n) : Bool := l.toList.isEmpty

def get? (l : BoundedList α n) (i : Nat) : Option α := l.toList[i]?

/-- Append a value when the limit permits. -/
def push (l : BoundedList α n) (a : α) : Option (BoundedList α n) :=
  if h : l.toList.length < n then some ⟨l.toList ++ [a], by rw [length_append]; exact h⟩ else none

/-- Take over a list when it is within the limit. -/
def tryFrom (l : List α) : Option (BoundedList α n) :=
  if h : l.length ≤ n then some ⟨l, h⟩ else none

/-- Overwrite the value at a position; nothing happens past the end. -/
def set (l : BoundedList α n) (i : Nat) (a : α) : BoundedList α n :=
  ⟨l.toList.set i a, by simpa using l.length_le⟩

/-- Update the value at a position; nothing happens past the end. -/
def modify (l : BoundedList α n) (i : Nat) (f : α → α) : BoundedList α n :=
  ⟨l.toList.modify i f, by simpa using l.length_le⟩

/-- Update every value. -/
def map (f : α → α) (l : BoundedList α n) : BoundedList α n :=
  ⟨l.toList.map f, by simpa using l.length_le⟩

/-- Leave out the first `k` values. -/
def drop (l : BoundedList α n) (k : Nat) : BoundedList α n :=
  ⟨l.toList.drop k, by have := l.length_le; simp; omega⟩

@[simp] theorem toList_set (l : BoundedList α n) (i : Nat) (a : α) :
    (l.set i a).toList = l.toList.set i a := rfl

@[simp] theorem toList_modify (l : BoundedList α n) (i : Nat) (f : α → α) :
    (l.modify i f).toList = l.toList.modify i f := rfl

@[simp] theorem length_set (l : BoundedList α n) (i : Nat) (a : α) :
    (l.set i a).length = l.length := by simp [length]

theorem get?_set (l : BoundedList α n) (i j : Nat) (a : α) :
    (l.set i a).get? j = if i = j then (l.get? j).map fun _ => a else l.get? j := by
  unfold get?
  rw [toList_set, getElem?_set']
  rfl

theorem get?_modify (l : BoundedList α n) (i j : Nat) (f : α → α) :
    (l.modify i f).get? j = if i = j then (l.get? j).map f else l.get? j := by
  unfold get?
  rw [toList_modify, getElem?_modify]
  split
  · rfl
  · simp

theorem push_eq_some : l.push a = some l' ↔ l.toList.length < n ∧ l'.toList = l.toList ++ [a] := by
  unfold push
  split
  · rename_i h
    simp only [Option.some.injEq, h, true_and]
    exact ⟨fun e => e ▸ rfl, fun e => (ext e).symm⟩
  · rename_i h
    simp [h]

theorem length_push (h : l.push a = some l') : l'.length = l.length + 1 := by
  rw [length, (push_eq_some.1 h).2, length_append]
  rfl

theorem get?_ne_none (h : i < l.length) : l.get? i ≠ none :=
  fun hnone => absurd (List.getElem?_eq_none_iff.1 hnone) (Nat.not_le.2 h)

theorem lt_length_of_get? (h : l.get? i = some a) :
    i < l.length := (List.getElem?_eq_some_iff.1 h).1

/-- A position with a value is below the limit. -/
theorem lt_of_get? (h : l.get? i = some a) : i < n :=
  Nat.lt_of_lt_of_le (List.getElem?_eq_some_iff.1 h).1 l.length_le

theorem tryFrom_eq_some {l : List α} : tryFrom l = some l' ↔ l'.toList = l := by
  unfold tryFrom
  split
  · simp only [Option.some.injEq]
    exact ⟨fun e => e ▸ rfl, fun e => (ext e).symm⟩
  · rename_i h
    simp only [reduceCtorEq, false_iff]
    intro e
    exact h (e ▸ l'.length_le)

end BoundedList

/-- The positions of a list whose entries pass a test, in order. -/
theorem filterMap_zipIdx {α β : Type} (p : α → Bool) (g : Nat → β) (l : List α) :
    (l.zipIdx.filterMap fun (a, i) => if p a then some (g i) else none) =
      ((List.range l.length).filter fun i => l[i]?.any p).map g := by
  induction l using List.reverseRecOn with
  | nil => rfl
  | append_singleton l a ih =>
    have hold : (List.range l.length).filter (fun i => (l ++ [a])[i]?.any p) =
        (List.range l.length).filter fun i => l[i]?.any p :=
      filter_congr fun i hi => by rw [getElem?_append_left (mem_range.1 hi)]
    rw [zipIdx_append, filterMap_append, ih, length_append, length_singleton,
      range_succ, filter_append, hold, map_append, Nat.zero_add]
    cases hp : p a <;> simp [hp]

end Moonglass.Lib
