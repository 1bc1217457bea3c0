import Mathlib.Data.List.Infix

/-!
# Replacing a fragment of a text

All occurrences of a fragment are replaced, from the left, each after the end of the one before. A
fragment without a separator is replaced on both sides of the separator on its own, and a text
without the fragment stays as it is.

Everything is stated over an arbitrary type of characters.
-/

namespace Replace

variable {α : Type*} [DecidableEq α] {old new s u v : List α} {c : α}

/-- The text with its first characters dropped, as the rest of an occurrence, and the others
replaced. -/
def replaceFrom (old new : List α) : ℕ → List α → List α
  | _, [] => []
  | k + 1, _ :: cs => replaceFrom old new k cs
  | 0, c :: cs =>
    if old.isPrefixOf (c :: cs) then new ++ replaceFrom old new (old.length - 1) cs
    else c :: replaceFrom old new 0 cs

/-- The text with all occurrences replaced. -/
def replace (old new s : List α) : List α := replaceFrom old new 0 s

omit [DecidableEq α] in
theorem prefix_append_sep_iff (hc : c ∉ old) : old <+: u ++ c :: v ↔ old <+: u := by
  refine ⟨fun h ↦ ?_, fun h ↦ h.trans (List.prefix_append _ _)⟩
  rcases le_or_gt old.length u.length with hle | hlt
  · exact List.prefix_of_prefix_length_le h (List.prefix_append _ _) hle
  · -- Otherwise the separator would be in the fragment.
    have hsep : u ++ [c] <+: old := by
      refine List.prefix_of_prefix_length_le ?_ h (by rw [List.length_append]; exact hlt)
      rw [List.append_cons u c v]
      exact List.prefix_append _ _
    exact absurd (hsep.subset (List.mem_append_right u (List.mem_singleton_self _))) hc

theorem mem_replaceFrom {k : ℕ} (h : c ∈ replaceFrom old new k s) : c ∈ new ∨ c ∈ s := by
  induction s generalizing k with
  | nil => cases k <;> cases h
  | cons a s ih =>
    have htail : ∀ {k}, c ∈ replaceFrom old new k s → c ∈ new ∨ c ∈ a :: s := fun h ↦
      (ih h).imp_right (List.mem_cons_of_mem a)
    cases k with
    | succ k => exact htail h
    | zero =>
      rw [replaceFrom] at h
      split_ifs at h
      · exact (List.mem_append.mp h).elim .inl htail
      · rcases List.mem_cons.mp h with rfl | h
        exacts [.inr List.mem_cons_self, htail h]

theorem mem_replace (h : c ∈ replace old new s) : c ∈ new ∨ c ∈ s := mem_replaceFrom h

/-- With a longer text in the place of the fragment nothing gets shorter. -/
theorem le_length_replaceFrom (hne : old ≠ []) (hlen : old.length ≤ new.length) (k : ℕ) :
    s.length ≤ (replaceFrom old new k s).length + k := by
  have hpos := List.length_pos_of_ne_nil hne
  induction s generalizing k with
  | nil => exact Nat.zero_le _
  | cons c cs ih =>
    cases k with
    | succ k =>
      rw [replaceFrom, List.length_cons, ← Nat.add_assoc]
      exact Nat.succ_le_succ (ih k)
    | zero =>
      rw [replaceFrom]
      split_ifs
      · have hle := ih (old.length - 1)
        rw [List.length_cons, List.length_append]
        omega
      · exact Nat.succ_le_succ (ih 0)

end Replace
