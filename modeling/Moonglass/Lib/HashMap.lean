import Mathlib.Data.Finmap
import Mathlib.Data.List.Sort

/-
  Hash maps. A map is a `Finmap`, so two maps with the same entries are equal and no operation
  depends on how a map was built. What a program can observe beyond that is the order in which it
  iterates over a map; an `IterOrder` fixes one, and a function that iterates takes it as an
  argument. Every enumeration of the entries without repetition is an `IterOrder`.
-/

namespace Moonglass.Lib

open List

/-- A finite map from `κ` to `υ`. -/
abbrev HashMap (κ υ : Type) := Finmap fun _ : κ => υ

namespace HashMap

variable {κ υ : Type} [DecidableEq κ]
variable {m : HashMap κ υ} {k : κ}

theorem lookup_insert_eq (m : HashMap κ υ) (k k' : κ) (v : υ) :
    (m.insert k v).lookup k' = if k' = k then some v else m.lookup k' := by
  by_cases h : k' = k
  · subst h; simp
  · simp [h, Finmap.lookup_insert_of_ne]

theorem mem_iff_lookup : k ∈ m ↔ ∃ v, m.lookup k = some v := by
  rw [← Finmap.lookup_isSome, Option.isSome_iff_exists]

theorem mem_of_lookup {v : υ} (h : m.lookup k = some v) : k ∈ m :=
  mem_iff_lookup.2 ⟨v, h⟩

theorem not_mem_iff_lookup : k ∉ m ↔ m.lookup k = none := by
  rw [← Finmap.lookup_eq_none]

/-- An entry of a map after an insertion is the new one or was there before. -/
theorem of_lookup_insert {k' : κ} {v v' : υ} (h : (m.insert k v).lookup k' = some v') :
    k' = k ∧ v' = v ∨ m.lookup k' = some v' := by
  rw [lookup_insert_eq] at h
  by_cases hk : k' = k
  · rw [if_pos hk] at h
    exact .inl ⟨hk, (Option.some.inj h).symm⟩
  · rw [if_neg hk] at h
    exact .inr h

theorem eq_of_lookup_singleton {k' : κ} {v v' : υ}
    (h : (Finmap.singleton k v : HashMap κ υ).lookup k' = some v') : k' = k ∧ v' = v := by
  by_cases hk : k' = k
  · subst hk
    rw [Finmap.lookup_singleton_eq] at h
    exact ⟨rfl, (Option.some.inj h).symm⟩
  · have hmem := mem_of_lookup h
    rw [Finmap.mem_singleton] at hmem
    exact absurd hmem hk

/-- Writing back the value a key already has changes nothing. -/
theorem insert_lookup {v : υ} (h : m.lookup k = some v) : m.insert k v = m := by
  apply Finmap.ext_lookup
  intro k'
  rw [lookup_insert_eq]
  by_cases hk : k' = k
  · subst hk; simp [h]
  · simp [hk]

/-- An order of iteration over maps: it lists the entries of each map, each once. -/
structure IterOrder (κ υ : Type) [DecidableEq κ] where
  entries : HashMap κ υ → List (κ × υ)
  nodup : ∀ m, ((entries m).map Prod.fst).Nodup
  mem_entries : ∀ m k v, (k, v) ∈ entries m ↔ m.lookup k = some v

namespace IterOrder

theorem entries_nodup (o : IterOrder κ υ) (m : HashMap κ υ) : (o.entries m).Nodup :=
  List.Nodup.of_map _ (o.nodup m)

/-- Two orders of iteration list the entries of a map up to permutation. -/
theorem entries_perm (o o' : IterOrder κ υ) (m : HashMap κ υ) :
    (o.entries m).Perm (o'.entries m) := by
  rw [perm_ext_iff_of_nodup (o.entries_nodup m) (o'.entries_nodup m)]
  rintro ⟨k, v⟩
  rw [o.mem_entries, o'.mem_entries]

/-- Values picked from the entries of a map are distinct when each is labelled by its key. -/
theorem nodup_filterMap {α : Type} (o : IterOrder κ υ) (m : HashMap κ υ) {f : κ × υ → Option α}
    (label : α → κ) (h : ∀ e a, f e = some a → label a = e.1) :
    ((o.entries m).filterMap f).Nodup := by
  have hsub : ∀ l : List (κ × υ), ((l.filterMap f).map label).Sublist (l.map Prod.fst) := by
    intro l
    induction l with
    | nil => exact List.Sublist.refl _
    | cons e l ih =>
      cases he : f e with
      | none =>
        rw [filterMap_cons_none he]
        exact ih.cons _
      | some a =>
        rw [filterMap_cons_some he, map_cons, map_cons, h e a he]
        exact ih.cons_cons _
  exact List.Nodup.of_map label ((o.nodup m).sublist (hsub _))

/-- The keys of a map in their order. -/
def sortedKeys [LinearOrder κ] (m : HashMap κ υ) : List κ :=
  Quot.liftOn m.keys.val (fun l => l.insertionSort (· ≤ ·)) fun _ _ h =>
    List.Perm.eq_of_pairwise (fun _ _ _ _ => le_antisymm) (pairwise_insertionSort _ _)
      (pairwise_insertionSort _ _)
      ((perm_insertionSort _ _).trans (h.trans (perm_insertionSort _ _).symm))

omit [DecidableEq κ] in
theorem sortedKeys_coe [LinearOrder κ] (m : HashMap κ υ) :
    (sortedKeys m : Multiset κ) = m.keys.val := by
  unfold sortedKeys
  induction m.keys.val using Quot.inductionOn with
  | h l => exact Quot.sound (perm_insertionSort _ l)

omit [DecidableEq κ] in
theorem mem_sortedKeys [LinearOrder κ] : k ∈ sortedKeys m ↔ k ∈ m := by
  rw [← Multiset.mem_coe, sortedKeys_coe, Finset.mem_val, Finmap.mem_keys]

/-- Iteration in the order of the keys. -/
def sorted [LinearOrder κ] : IterOrder κ υ where
  entries m := (sortedKeys m).filterMap fun k => (m.lookup k).map fun v => (k, v)
  nodup m := by
    have h : ((sortedKeys m).filterMap fun k => (m.lookup k).map fun v => (k, v)).map
        Prod.fst = sortedKeys m := by
      rw [map_filterMap]
      rw [filterMap_congr (g := some)]
      · simp
      · intro k hk
        rw [mem_sortedKeys, mem_iff_lookup] at hk
        obtain ⟨v, hv⟩ := hk
        simp [hv]
    rw [h, ← Multiset.coe_nodup, sortedKeys_coe]
    exact m.keys.nodup
  mem_entries m k v := by
    simp only [mem_filterMap, mem_sortedKeys, Option.map_eq_some_iff, Prod.mk.injEq]
    constructor
    · rintro ⟨k', -, v', hv, rfl, rfl⟩
      exact hv
    · intro h
      exact ⟨k, mem_of_lookup h, v, h, rfl, rfl⟩

end IterOrder

end HashMap

end Moonglass.Lib
