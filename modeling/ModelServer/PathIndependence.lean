import Mathlib.Data.Finset.Max
import Mathlib.Data.Finset.Lattice.Basic

/-- A choice from finite sets that does not depend on what is left out of the set, as long as it is not chosen. -/
structure PathIndependent {α : Type*} (choose : Finset α → Finset α) : Prop where
  subset : ∀ xs, choose xs ⊆ xs
  heredity : ∀ {xs ys x}, ys ⊆ xs → x ∈ choose xs → x ∈ ys → x ∈ choose ys
  outcast : ∀ {xs ys}, choose xs ⊆ ys → ys ⊆ xs → choose ys = choose xs

namespace PathIndependent

variable {α : Type*} {choose : Finset α → Finset α} {xs ys zs : Finset α}

theorem id : PathIndependent (id : Finset α → Finset α) where
  subset _ := Finset.Subset.refl _
  heredity _ _ hx := hx
  outcast hxs hys := Finset.Subset.antisymm hys hxs

theorem inter [DecidableEq α] (wanted : Finset α) : PathIndependent (· ∩ wanted) where
  subset _ := Finset.inter_subset_left
  heredity _ hx hy := Finset.mem_inter.mpr ⟨hy, (Finset.mem_inter.mp hx).2⟩
  outcast hxs hys := by
    apply Finset.Subset.antisymm (Finset.inter_subset_inter_right hys)
    intro x hx
    exact Finset.mem_inter.mpr ⟨hxs hx, (Finset.mem_inter.mp hx).2⟩

section Greatest

variable [LinearOrder α]

/-- The `n` greatest elements. -/
def greatest (n : Nat) (xs : Finset α) : Finset α := xs.filter fun x => (xs.filter (x < ·)).card < n

theorem greatest_pathIndependent (n : Nat) : PathIndependent (greatest n : Finset α → Finset α) where
  subset _ := Finset.filter_subset _ _
  heredity := by
    intro xs ys x hsubset hx hy
    refine Finset.mem_filter.mpr ⟨hy, ?_⟩
    exact (Finset.card_le_card (Finset.filter_subset_filter _ hsubset)).trans_lt (Finset.mem_filter.mp hx).2
  outcast := by
    intro xs ys hchosen hsubset
    apply Finset.Subset.antisymm
    · intro x hx
      obtain ⟨hy, hcard⟩ := Finset.mem_filter.mp hx
      refine Finset.mem_filter.mpr ⟨hsubset hy, ?_⟩
      by_contra hmany
      -- the greatest element above `x` that is not chosen has `n` chosen elements above it
      let missed := (xs.filter (x < ·)).filter (· ∉ greatest n xs)
      by_cases hmissed : missed.Nonempty
      · obtain ⟨hmem, hnot⟩ := Finset.mem_filter.mp (missed.max'_mem hmissed)
        obtain ⟨hmem, habove⟩ := Finset.mem_filter.mp hmem
        have hless : ¬ (xs.filter (missed.max' hmissed < ·)).card < n := fun h => hnot (Finset.mem_filter.mpr ⟨hmem, h⟩)
        have hcover : xs.filter (missed.max' hmissed < ·) ⊆ ys.filter (x < ·) := by
          intro z hz
          obtain ⟨hz, hlt⟩ := Finset.mem_filter.mp hz
          refine Finset.mem_filter.mpr ⟨hchosen ?_, habove.trans hlt⟩
          by_contra hz'
          have hle := missed.le_max' z (Finset.mem_filter.mpr ⟨Finset.mem_filter.mpr ⟨hz, habove.trans hlt⟩, hz'⟩)
          exact absurd hlt (not_lt.mpr hle)
        exact hless ((Finset.card_le_card hcover).trans_lt hcard)
      · have hcover : xs.filter (x < ·) ⊆ ys.filter (x < ·) := by
          intro z hz
          refine Finset.mem_filter.mpr ⟨hchosen ?_, (Finset.mem_filter.mp hz).2⟩
          by_contra hz'
          exact hmissed ⟨z, Finset.mem_filter.mpr ⟨hz, hz'⟩⟩
        exact hmany ((Finset.card_le_card hcover).trans_lt hcard)
    · intro x hx
      have hx' := (Finset.mem_filter.mp hx).2
      refine Finset.mem_filter.mpr ⟨hchosen hx, ?_⟩
      exact (Finset.card_le_card (Finset.filter_subset_filter _ hsubset)).trans_lt hx'

end Greatest

variable (h : PathIndependent choose)
include h

end PathIndependent
