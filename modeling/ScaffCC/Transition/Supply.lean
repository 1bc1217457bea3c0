import Mathlib.Data.List.Nodup

/-!
# Supplies of labels

A state gives out labels one after the other. If what is given out was not old before and is old
from then on, then no label is given out twice, however many steps there are.
-/

namespace Supply

variable {S L : Type*} {Old : S → L → Prop} {s s' s'' : S} {ls ls' : List L}

/-- Between two states some labels are given out. -/
structure Gives (Old : S → L → Prop) (s s' : S) (ls : List L) : Prop where
  nodup : ls.Nodup
  fresh : ∀ l ∈ ls, ¬ Old s l
  old : ∀ l ∈ ls, Old s' l
  mono : ∀ l, Old s l → Old s' l

theorem Gives.nil (h : ∀ l, Old s l → Old s' l) : Gives Old s s' [] :=
  ⟨List.nodup_nil, nofun, nofun, h⟩

theorem Gives.refl (s : S) : Gives Old s s [] := .nil fun _ h ↦ h

/-- **Labels of two steps are distinct.** -/
theorem Gives.append (h : Gives Old s s' ls) (h' : Gives Old s' s'' ls') :
    Gives Old s s'' (ls ++ ls') where
  nodup := by
    refine List.nodup_append'.mpr ⟨h.nodup, h'.nodup, fun l hl hl' ↦ ?_⟩
    exact h'.fresh l hl' (h.old l hl)
  fresh := List.forall_mem_append.mpr ⟨h.fresh, fun l hl hold ↦ h'.fresh l hl (h.mono l hold)⟩
  old := List.forall_mem_append.mpr ⟨fun l hl ↦ h'.mono l (h.old l hl), h'.old⟩
  mono := fun l hold ↦ h'.mono l (h.mono l hold)

theorem Gives.sublist (h : Gives Old s s' ls) (hsub : ls'.Sublist ls) : Gives Old s s' ls' :=
  ⟨h.nodup.sublist hsub, fun l hl ↦ h.fresh l (hsub.subset hl),
    fun l hl ↦ h.old l (hsub.subset hl), h.mono⟩

end Supply
