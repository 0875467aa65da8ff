import Mathlib.Data.List.Sort
import Mathlib.Data.List.Perm.Subperm

/-
  Lists with one entry per key. `upsert` overwrites the entry of a key in place or adds a new one at
  the end, and `sortByKey` puts a list in the order of its keys. A list whose keys increase strictly
  is determined by its entries.
-/

namespace Moonglass.Lib

open List

variable {α κ : Type} [LinearOrder κ]

/-- Overwrite the entry with the key of `x`, or add `x` at the end. -/
def upsert (key : α → κ) (x : α) : List α → List α
  | [] => [x]
  | y :: rest => if key y = key x then x :: rest else y :: upsert key x rest

/-- The list in the order of its keys. -/
def sortByKey (key : α → κ) (l : List α) : List α := l.insertionSort fun a b => key a ≤ key b

/-- The keys increase strictly. -/
def KeyOrdered (key : α → κ) (l : List α) : Prop := l.Pairwise fun a b => key a < key b

variable {key : α → κ} {l l' : List α} {x y : α}

theorem mem_upsert (h : (l.map key).Nodup) :
    y ∈ upsert key x l ↔ y = x ∨ y ∈ l ∧ key y ≠ key x := by
  induction l with
  | nil => simp [upsert]
  | cons z l ih =>
    rw [map_cons, nodup_cons] at h
    by_cases hz : key z = key x
    · have hother : ∀ w ∈ l, key w ≠ key x := by
        intro w hw heq
        exact h.1 (mem_map.2 ⟨w, hw, heq.trans hz.symm⟩)
      rw [upsert, if_pos hz, mem_cons, mem_cons]
      constructor
      · rintro (hy | hy)
        · exact .inl hy
        · exact .inr ⟨.inr hy, hother y hy⟩
      · rintro (hy | ⟨rfl | hy, hne⟩)
        · exact .inl hy
        · exact absurd hz hne
        · exact .inr hy
    · rw [upsert, if_neg hz, mem_cons, ih h.2, mem_cons]
      constructor
      · rintro (rfl | hy | ⟨hy, hne⟩)
        · exact .inr ⟨.inl rfl, hz⟩
        · exact .inl hy
        · exact .inr ⟨.inr hy, hne⟩
      · rintro (hy | ⟨rfl | hy, hne⟩)
        · exact .inr (.inl hy)
        · exact .inl rfl
        · exact .inr (.inr ⟨hy, hne⟩)

theorem nodup_upsert (h : (l.map key).Nodup) : ((upsert key x l).map key).Nodup := by
  induction l with
  | nil => simp [upsert]
  | cons z l ih =>
    rw [map_cons, nodup_cons] at h
    by_cases hz : key z = key x
    · rw [upsert, if_pos hz, map_cons, ← hz]
      exact nodup_cons.2 h
    · rw [upsert, if_neg hz, map_cons]
      refine nodup_cons.2 ⟨fun hmem => ?_, ih h.2⟩
      obtain ⟨w, hw, heq⟩ := mem_map.1 hmem
      rcases (mem_upsert h.2).1 hw with rfl | ⟨hw, -⟩
      · exact hz heq.symm
      · exact h.1 (mem_map.2 ⟨w, hw, heq⟩)

theorem perm_sortByKey (key : α → κ) (l : List α) : (sortByKey key l).Perm l :=
  perm_insertionSort _ l

theorem mem_sortByKey : y ∈ sortByKey key l ↔ y ∈ l := (perm_sortByKey key l).mem_iff

theorem KeyOrdered.nodup (h : KeyOrdered key l) : (l.map key).Nodup :=
  (pairwise_map.2 h).imp fun hlt => ne_of_lt hlt

/-- Sorting a list with one entry per key orders its keys strictly. -/
theorem keyOrdered_sortByKey (h : (l.map key).Nodup) : KeyOrdered key (sortByKey key l) := by
  have hle : (sortByKey key l).Pairwise fun a b => key a ≤ key b := by
    have : Std.Total fun a b : α => key a ≤ key b := ⟨fun a b => le_total (key a) (key b)⟩
    have : IsTrans α fun a b => key a ≤ key b := ⟨fun a b c => le_trans⟩
    exact pairwise_insertionSort _ l
  have hne : (sortByKey key l).Pairwise fun a b => key a ≠ key b :=
    pairwise_map.1 (((perm_sortByKey key l).map key).nodup_iff.2 h)
  exact (hle.and hne).imp fun hlt => lt_of_le_of_ne hlt.1 hlt.2

theorem KeyOrdered.eq_of_perm (h : KeyOrdered key l) (h' : KeyOrdered key l') (hperm : l.Perm l') :
    l = l' :=
  hperm.eq_of_pairwise (fun _ _ _ _ hlt hlt' => absurd (hlt.trans hlt') (lt_irrefl _)) h h'

/-- An ordered list that holds all entries of a list with as many keys holds nothing else. -/
theorem KeyOrdered.eq_sortByKey (h : KeyOrdered key l) (hkeys : (l'.map key).Nodup)
    (hsub : l' ⊆ l) (hlength : l.length ≤ l'.length) : l = sortByKey key l' := by
  have hperm : l'.Perm l := (hkeys.of_map.subperm hsub).perm_of_length_le hlength
  exact h.eq_of_perm (keyOrdered_sortByKey hkeys) (hperm.symm.trans (perm_sortByKey key l').symm)

end Moonglass.Lib
