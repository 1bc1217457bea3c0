import ScaffCC.Rkqc.Minus

/-!
# The multiplier

Multiplication adds a shifted factor for every bit of the other one. A round is an addition in place
under the control of that bit; the carries are kept in the register of the factor, which is restored
before the round ends. The top bit needs no carries and is added alone.
-/

namespace ScaffCC.Rkqc

open Reversible

/-! ## The source -/

section Gates

variable {ι : Type*}

/-- A negation under three controls. -/
def toffoli₃ (control₁ control₂ control₃ target : ι) : Gate ι :=
  ⟨[control₁, control₂, control₃], target⟩

/-- A round: `c` is added to `a` at position `j` if the bit of `b` is set. -/
def round (a b c : ℕ → ι) (size j : ℕ) : List (Gate ι) :=
  (up 1 (size - j)).flatMap (fun i ↦
    [toffoli (b j) (a (size - i)) (c (size - i - j)),
      toffoli (b j) (a (size - i - 1)) (a (size - i))]) ++
  (if j = 0 then [toffoli (b 0) (a 0) (c 0)] else [toffoli (b j) (a j) (c 0)]) ++
  (up 0 (size - 1 - j)).flatMap (fun i ↦ [toffoli₃ (b j) (c i) (a (i + j)) (a (i + j + 1))]) ++
  [toffoli₃ (b j) (c (size - 2 - j)) (a (size - 2)) (c (size - 1 - j))] ++
  (down (j + 1) (size - 1)).flatMap (fun i ↦
    [toffoli (b j) (c (i - j)) (c (i + 1 - j)),
      toffoli₃ (b j) (c (i - 1 - j)) (a (i - 1)) (c (i - j))]) ++
  [toffoli (b j) (c 0) (c 1), toffoli (b j) (a (0 + j)) (c 0),
    toffoli (b j) (c 0) (a (0 + j))] ++
  (up 1 (size - j)).flatMap (fun i ↦
    [toffoli (b j) (c (i - 1)) (c i), toffoli (b j) (a (i + j)) (c i),
      toffoli (b j) (c i) (a (i + j))])

/-- `a` is increased by the product of `b` and `c`. -/
def aEqAPlusBTimesC (a b c : ℕ → ι) (size : ℕ) : List (Gate ι) :=
  (up 0 (size - 1)).flatMap (round a b c size) ++
  [toffoli (b (size - 1)) (a (size - 1)) (c 0), toffoli (b (size - 1)) (a (size - 1)) (c 0),
    toffoli (b (size - 1)) (c 0) (a (size - 1))]

end Gates

/-! ## An addition in place -/

/-- A round without its control and its shift: `y` is added to `x`. -/
private def addTo {ι : Type*} (x y : ℕ → ι) (m : ℕ) : List (Gate ι) :=
  (up 1 m).flatMap (fun i ↦ [cnot (x (m - i)) (y (m - i)), cnot (x (m - i - 1)) (x (m - i))]) ++
  [cnot (x 0) (y 0)] ++
  (up 0 (m - 1)).flatMap (fun i ↦ [toffoli (y i) (x i) (x (i + 1))]) ++
  [toffoli (y (m - 2)) (x (m - 2)) (y (m - 1))] ++
  (down 1 (m - 1)).flatMap (fun i ↦
    [cnot (y i) (y (i + 1)), toffoli (y (i - 1)) (x (i - 1)) (y i)]) ++
  [cnot (y 0) (y 1), cnot (x 0) (y 0), cnot (y 0) (x 0)] ++
  (up 1 m).flatMap (fun i ↦ [cnot (y (i - 1)) (y i), cnot (x i) (y i), cnot (y i) (x i)])

section Loops

variable {m : ℕ} {x y : ℕ → Bool} {s : Operand × ℕ → Bool}

/-- The first loop: the bits without carries in the second register. -/
private theorem run_add_parities (hm : 0 < m) (h : Holds m s x y) :
    Holds m (run [cnot (.x, 0) (.y, 0)] (run ((up 1 m).flatMap fun i ↦
      [cnot (.x, m - i) (.y, m - i), cnot (.x, m - i - 1) (.x, m - i)]) s))
      (fun i ↦ if 1 ≤ i then x i ^^ x (i - 1) else x i) (fun i ↦ x i ^^ y i) := by
  have hloop := run_up (a := 1) (b := m) (s := s) (P := fun k s ↦ Holds m s
    (fun i ↦ if m < i + k then x i ^^ x (i - 1) else x i)
    (fun i ↦ if m < i + k then x i ^^ y i else y i))
    (B := fun i ↦ [cnot (.x, m - i) (.y, m - i), cnot (.x, m - i - 1) (.x, m - i)]) hm
    (fun i hi ↦ by simpa [Nat.not_lt.mpr (Nat.succ_le_of_lt hi)] using h i hi)
    fun k s hk hkm hs i hi ↦ ?_
  · intro i hi
    obtain ⟨hx, hy⟩ := hloop i hi
    rcases Nat.eq_zero_or_pos i with rfl | hpos
    · simp only [run_cons, run_nil, act_cnot, hx, hy]
      cases x 0 <;> cases y 0 <;> simp
    · simp [act_cnot, hx, hy, hpos.ne', hpos, Nat.succ_le_of_lt hpos]
  · obtain ⟨hx, hy⟩ := hs i hi
    obtain ⟨l, rfl⟩ : ∃ l, m = l + 1 + k := ⟨m - k - 1, by omega⟩
    obtain ⟨hxl, -⟩ := hs l (by omega)
    have hl : ¬ l + 1 + k < l + k := by omega
    simp only [Nat.add_sub_cancel, run_cons, run_nil, act_cnot, Prod.mk.injEq, reduceCtorEq,
      true_and, false_and, if_false]
    rcases eq_or_ne i (l + 1) with rfl | hne
    · have hdone : l + 1 + k < l + 1 + (k + 1) := by omega
      simp only [hx, hy, hxl, hl, hdone, Nat.lt_irrefl, if_true, if_false, Nat.add_sub_cancel]
      cases x (l + 1) <;> cases y (l + 1) <;> cases x l <;> simp
    · have hlt : l + 1 + k < i + (k + 1) ↔ l + 1 + k < i + k := by omega
      simp only [hne, hx, hy, hlt, if_false, and_self]

private theorem run_carries (hm : 0 < m)
    (h : Holds m s (fun i ↦ if 1 ≤ i then x i ^^ x (i - 1) else x i) (fun i ↦ x i ^^ y i)) :
    Holds m (run ((up 0 (m - 1)).flatMap fun i ↦ [toffoli (.y, i) (.x, i) (.x, i + 1)]) s)
      (fun i ↦ x i ^^ carry x y i) (fun i ↦ x i ^^ y i) := by
  have hloop := run_up (a := 0) (b := m - 1) (s := s) (P := fun k s ↦ Holds m s
    (fun i ↦ if i ≤ k then x i ^^ carry x y i else x i ^^ x (i - 1)) (fun i ↦ x i ^^ y i))
    (B := fun i ↦ [toffoli (.y, i) (.x, i) (.x, i + 1)]) (Nat.zero_le _)
    (fun i hi ↦ ?_) fun k s _ hkm hs i hi ↦ ?_
  · intro i hi
    simpa [Nat.le_sub_one_of_lt hi] using hloop i hi
  · obtain ⟨hx, hy⟩ := h i hi
    rcases Nat.eq_zero_or_pos i with rfl | hpos
    · simp [hx, hy]
    · simp [hx, hy, hpos.ne', Nat.succ_le_of_lt hpos]
  · obtain ⟨hx, hy⟩ := hs i hi
    obtain ⟨hxk, hyk⟩ := hs k (by omega)
    simp only [run_cons, run_nil, act_toffoli, Prod.mk.injEq, reduceCtorEq, true_and, false_and,
      if_false, hy, and_true]
    rcases eq_or_ne i (k + 1) with rfl | hne
    · simp only [hx, hxk, hyk, Nat.not_succ_le_self, le_refl, if_true, if_false,
        Nat.add_sub_cancel, carry]
      cases x (k + 1) <;> cases x k <;> cases y k <;> cases carry x y k <;> rfl
    · have hle : i ≤ k + 1 ↔ i ≤ k := by omega
      simp only [hne, hx, hle, if_false]

/-- The part of the next carry that is left in the second register. -/
private def part (x y : ℕ → Bool) (i : ℕ) : Bool :=
  carry x y i ^^ x (i - 1)

private theorem part_succ (x y : ℕ → Bool) (i : ℕ) :
    part x y (i + 1) = ((x i ^^ y i) && (x i ^^ carry x y i)) := by
  rw [part, carry, Nat.add_sub_cancel]
  cases x i <;> cases y i <;> cases carry x y i <;> rfl

/-- The third loop: the carries in the second register. -/
private theorem run_uncompute (hm : 2 ≤ m)
    (h : Holds m s (fun i ↦ x i ^^ carry x y i) (fun i ↦ x i ^^ y i)) :
    Holds m (run ((down 1 (m - 1)).flatMap fun i ↦
        [cnot (.y, i) (.y, i + 1), toffoli (.y, i - 1) (.x, i - 1) (.y, i)])
        (run [toffoli (.y, m - 2) (.x, m - 2) (.y, m - 1)] s))
      (fun i ↦ x i ^^ carry x y i)
      (fun i ↦ if i = 0 then x i ^^ y i else if i = 1 then (x i ^^ y i) ^^ part x y i
        else ((x i ^^ y i) ^^ part x y i) ^^ (x (i - 1) ^^ y (i - 1))) := by
  -- the loop runs down, so the lines below `k` are as they were
  have hloop := run_down (a := 1) (b := m - 1) (P := fun k s ↦ Holds m s
    (fun i ↦ x i ^^ carry x y i)
    (fun i ↦ if i < k then x i ^^ y i else if i = k then (x i ^^ y i) ^^ part x y i
      else ((x i ^^ y i) ^^ part x y i) ^^ (x (i - 1) ^^ y (i - 1))))
    (s := run [toffoli (.y, m - 2) (.x, m - 2) (.y, m - 1)] s)
    (B := fun i ↦ [cnot (.y, i) (.y, i + 1), toffoli (.y, i - 1) (.x, i - 1) (.y, i)])
    (by omega) (fun i hi ↦ ?_) fun k s hk hkm hs i hi ↦ ?_
  · intro i hi
    simpa [Nat.lt_one_iff] using hloop i hi
  · obtain ⟨l, rfl⟩ : ∃ l, m = l + 2 := ⟨m - 2, by omega⟩
    obtain ⟨hx, hy⟩ := h i hi
    obtain ⟨hxl, hyl⟩ := h l (by omega)
    have hsub : l + 2 - 1 = l + 1 := rfl
    simp only [hsub, Nat.add_sub_cancel, run_cons, run_nil, act_toffoli, Prod.mk.injEq,
      reduceCtorEq, true_and, false_and, if_false, hx]
    rcases eq_or_ne i (l + 1) with rfl | hne
    · simp only [hy, hxl, hyl, part_succ, Nat.lt_irrefl, if_true, if_false]
    · have hlt : i < l + 1 := by omega
      simp only [hne, hlt, hy, if_true, if_false]
  · obtain ⟨l, rfl⟩ : ∃ l, k = l + 1 := ⟨k - 1, by omega⟩
    obtain ⟨hx, hy⟩ := hs i hi
    obtain ⟨hxl, hyl⟩ := hs l (by omega)
    obtain ⟨-, hyk⟩ := hs (l + 1) (by omega)
    have hyl' : s (.y, l) = (x l ^^ y l) := hyl.trans (if_pos (by omega))
    have hl : l ≠ l + 1 + 1 := by omega
    simp only [run_cons, run_nil, act_cnot, act_toffoli, Prod.mk.injEq, reduceCtorEq, true_and,
      false_and, if_false, Nat.add_sub_cancel, hx]
    rcases eq_or_ne i (l + 1) with rfl | hne
    · simp [hyk, hxl, hyl', hl, part_succ]
    · rcases eq_or_ne i (l + 1 + 1) with rfl | hne'
      · have hnot : ¬ l + 1 + 1 < l + 1 := by omega
        simp [hy, hyk, hnot]
      · have hlt : i < l + 1 + 1 ↔ i < l + 1 := by omega
        simp only [hne, hne', hy, hlt, if_false]

/-- The last loop: the sum, and the other summand again. -/
private theorem run_add_restore (hm : 2 ≤ m)
    (h : Holds m s (fun i ↦ x i ^^ carry x y i)
      (fun i ↦ if i = 0 then x i ^^ y i else if i = 1 then (x i ^^ y i) ^^ part x y i
        else ((x i ^^ y i) ^^ part x y i) ^^ (x (i - 1) ^^ y (i - 1)))) :
    Holds m (run ((up 1 m).flatMap fun i ↦
        [cnot (.y, i - 1) (.y, i), cnot (.x, i) (.y, i), cnot (.y, i) (.x, i)])
        (run [cnot (.y, 0) (.y, 1), cnot (.x, 0) (.y, 0), cnot (.y, 0) (.x, 0)] s))
      (sumBit x y) y := by
  -- below `k` the sum is written and the second register restored
  have hloop := run_up (a := 1) (b := m) (P := fun k s ↦ Holds m s
    (fun i ↦ if i < k then sumBit x y i else x i ^^ carry x y i)
    (fun i ↦ if i < k then y i else ((x i ^^ y i) ^^ part x y i) ^^ (x (i - 1) ^^ y (i - 1))))
    (s := run [cnot (.y, 0) (.y, 1), cnot (.x, 0) (.y, 0), cnot (.y, 0) (.x, 0)] s)
    (B := fun i ↦ [cnot (.y, i - 1) (.y, i), cnot (.x, i) (.y, i), cnot (.y, i) (.x, i)])
    (by omega) (fun i hi ↦ ?_) fun k s hk hkm hs i hi ↦ ?_
  · intro i hi
    simpa [hi] using hloop i hi
  · obtain ⟨hx, hy⟩ := h i hi
    obtain ⟨hx₀, hy₀⟩ := h 0 (by omega)
    obtain ⟨-, hy₁⟩ := h 1 (by omega)
    simp only [run_cons, run_nil, act_cnot, Prod.mk.injEq, reduceCtorEq, true_and, false_and,
      if_false]
    obtain _ | _ | i := i
    · simp only [hx₀, hy₀, sumBit, carry_zero]
      cases x 0 <;> cases y 0 <;> simp
    · simp only [hx, hy₀, hy₁, part]
      cases x 0 <;> cases y 0 <;> cases x 1 <;> cases y 1 <;> simp
    · rw [hx, hy]
      simp
  · obtain ⟨l, rfl⟩ : ∃ l, k = l + 1 := ⟨k - 1, by omega⟩
    obtain ⟨hx, hy⟩ := hs i hi
    obtain ⟨-, hyl⟩ := hs l (by omega)
    simp only [run_cons, run_nil, act_cnot, Prod.mk.injEq, reduceCtorEq, true_and, false_and,
      if_false, Nat.add_sub_cancel]
    rcases eq_or_ne i (l + 1) with rfl | hne
    · simp only [hx, hy, hyl, Nat.lt_irrefl, Nat.lt_succ_self, if_true, if_false,
        Nat.add_sub_cancel, sumBit, part]
      cases x (l + 1) <;> cases y (l + 1) <;> cases x l <;> cases y l <;>
        cases carry x y (l + 1) <;> simp
    · have hlt : i < l + 1 + 1 ↔ i < l + 1 := by omega
      simp only [hne, hx, hy, hlt, if_false, and_self]

/-- **The addition in place.** -/
private theorem run_addTo (hm : 2 ≤ m) (h : Holds m s x y) :
    Holds m (run (addTo (Prod.mk Operand.x) (Prod.mk Operand.y) m) s) (sumBit x y) y := by
  have hpos : 0 < m := by omega
  have hcarries := run_carries hpos (run_add_parities hpos h)
  have hsum := run_add_restore hm (run_uncompute hm hcarries)
  simpa only [addTo, run_append] using hsum

end Loops

private theorem addTo_below {m : ℕ} (hm : 2 ≤ m) :
    ∀ g ∈ addTo (Prod.mk Operand.x) (Prod.mk Operand.y) m, g.Below m := by
  simp only [addTo, List.mem_append, List.mem_flatMap, mem_up, mem_down, List.mem_cons,
    List.not_mem_nil, or_false]
  rintro g ((((((⟨i, hi, rfl | rfl⟩ | rfl) | ⟨i, hi, rfl⟩) | rfl) | ⟨i, hi, rfl | rfl⟩) |
    rfl | rfl | rfl) | ⟨i, hi, rfl | rfl | rfl⟩) <;>
    simp [Gate.Below, Gate.Within, cnot, toffoli] <;> omega

private theorem map_addTo {ι κ : Type*} (f : ι → κ) (x y : ℕ → ι) (m : ℕ) :
    (addTo x y m).map (Gate.map f) = addTo (fun i ↦ f (x i)) (fun i ↦ f (y i)) m := by
  simp [addTo, List.map_flatMap, Gate.map, cnot, toffoli]

/-! ## Rounds -/

/-- The three registers. -/
inductive Factor
  | a
  | b
  | c
deriving DecidableEq

/-- The positions of a round. -/
private def shifted (j : ℕ) (w : Operand × ℕ) : Factor × ℕ :=
  match w with
  | (.x, i) => (.a, i + j)
  | (.y, i) => (.c, i)

private theorem under_cnot {ι : Type*} (b c t : ι) : (cnot c t).under b = toffoli b c t := rfl

private theorem under_toffoli {ι : Type*} (b c c' t : ι) :
    (toffoli c c' t).under b = toffoli₃ b c c' t := rfl

/-- **A round is a shifted addition under the control of its bit.** -/
private theorem round_eq {n j : ℕ} (hj : j + 1 < n) :
    round (Prod.mk Factor.a) (Prod.mk Factor.b) (Prod.mk Factor.c) n j =
      ((addTo (Prod.mk Operand.x) (Prod.mk Operand.y) (n - j)).map
        (Gate.map (shifted j))).map (Gate.under (.b, j)) := by
  have hdown : down (j + 1) (n - 1) = (down 1 (n - j - 1)).map (· + j) := by
    rw [down_add, Nat.add_comm 1 j, show n - j - 1 + j = n - 1 by omega]
  have hbottom : (if j = 0 then [toffoli (.b, 0) (.a, 0) (.c, 0)]
      else [toffoli (.b, j) (.a, j) (.c, 0)] : List (Gate (Factor × ℕ))) =
        [toffoli (.b, j) (.a, j) (.c, 0)] := by
    split_ifs with h
    · rw [h]
    · rfl
  rw [round, hbottom, hdown, map_addTo, addTo]
  simp only [List.map_append, List.map_flatMap, List.flatMap_map, List.map_cons, List.map_nil]
  simp only [under_cnot, under_toffoli, shifted]
  refine congrArg₂ _ (congrArg₂ _ (congrArg₂ _ (congrArg₂ _ (congrArg₂ _ (congrArg₂ _ ?_ ?_) ?_)
    ?_) ?_) ?_) ?_
  · refine List.flatMap_congr fun i hi ↦ ?_
    obtain ⟨-, hi⟩ := mem_up.mp hi
    rw [show n - i - j = n - j - i by omega, show n - j - i - 1 + j = n - i - 1 by omega,
      show n - j - i + j = n - i by omega]
  · rw [Nat.zero_add]
  · rw [Nat.sub_right_comm]
    refine List.flatMap_congr fun i _ ↦ ?_
    rw [Nat.add_right_comm]
  · rw [show n - 2 - j = n - j - 2 by omega, show n - 1 - j = n - j - 1 by omega,
      show n - j - 2 + j = n - 2 by omega]
  · refine List.flatMap_congr fun i hi ↦ ?_
    obtain ⟨hi, -⟩ := mem_down.mp hi
    rw [Nat.add_sub_cancel, show i + j + 1 - j = i + 1 by omega,
      show i + j - 1 - j = i - 1 by omega, show i + j - 1 = i - 1 + j by omega]
  · rfl
  · rfl

/-- What a round does: it adds the shifted factor if the bit is set. -/
private def Adds (n j : ℕ) (s s' : Factor × ℕ → Bool) : Prop :=
  ∀ i < n, s' (.b, i) = s (.b, i) ∧ s' (.c, i) = s (.c, i) ∧
    s' (.a, i) =
      if s (.b, j) then
        if i < j then s (.a, i)
        else sumBit (fun k ↦ s (.a, k + j)) (fun k ↦ s (.c, k)) (i - j)
      else s (.a, i)

private theorem adds_round {n j : ℕ} (hj : j + 1 < n) (s : Factor × ℕ → Bool) :
    Adds n j s (run (round (Prod.mk Factor.a) (Prod.mk Factor.b) (Prod.mk Factor.c) n j) s) := by
  have hinj : Set.InjOn (shifted j) {w | w.2 < n - j} := by
    rintro ⟨r, i⟩ - ⟨r', i'⟩ - h
    cases r <;> cases r' <;> simp_all [shifted]
  have hbelow := addTo_below (m := n - j) (by omega)
  -- the wires of a round are the ones of the addition
  have htarget : ∀ w ∈ ((addTo (Prod.mk Operand.x) (Prod.mk Operand.y) (n - j)).map
      (Gate.map (shifted j))).map Gate.target, ∃ r i, i < n - j ∧ w = shifted j (r, i) := by
    intro w hw
    simp only [List.mem_map] at hw
    obtain ⟨-, ⟨g, hg, rfl⟩, rfl⟩ := hw
    exact ⟨g.target.1, g.target.2, (hbelow g hg).2, rfl⟩
  have hb : ∀ i, (Factor.b, i) ∉ ((addTo (Prod.mk Operand.x) (Prod.mk Operand.y) (n - j)).map
      (Gate.map (shifted j))).map Gate.target := by
    intro i hi
    obtain ⟨r, k, -, h⟩ := htarget _ hi
    cases r <;> simp [shifted] at h
  rw [round_eq hj, run_under (hb j)]
  cases hbit : s (.b, j) with
  | false => exact fun i _ ↦ ⟨rfl, rfl, by simp [hbit]⟩
  | true =>
    have hsum := run_addTo (m := n - j) (s := fun w ↦ s (shifted j w)) (by omega)
      fun _ _ ↦ ⟨rfl, rfl⟩
    have hrun := run_map hinj hbelow (s := s) (t := fun w ↦ s (shifted j w)) fun _ _ ↦ rfl
    rw [if_pos rfl]
    intro i hi
    refine ⟨run_of_notMem (hb i) s, ?_, ?_⟩
    · rcases Nat.lt_or_ge i (n - j) with hlt | hge
      · exact (hrun (.y, i) hlt).trans (hsum i hlt).2
      · refine run_of_notMem (fun hmem ↦ ?_) s
        obtain ⟨r, k, hk, h⟩ := htarget _ hmem
        cases r <;> simp [shifted] at h
        omega
    · rw [if_pos hbit]
      split_ifs with hij
      · refine run_of_notMem (fun hmem ↦ ?_) s
        obtain ⟨r, k, hk, h⟩ := htarget _ hmem
        cases r <;> simp [shifted] at h
        omega
      · have hlt : i - j < n - j := by omega
        have hx := (hrun (.x, i - j) hlt).trans (hsum (i - j) hlt).1
        rwa [shifted, Nat.sub_add_cancel (by omega)] at hx

private theorem adds_last {n : ℕ} (hn : 1 ≤ n) (s : Factor × ℕ → Bool) :
    Adds n (n - 1) s (run [toffoli (Factor.b, n - 1) (.a, n - 1) (.c, 0),
      toffoli (.b, n - 1) (.a, n - 1) (.c, 0), toffoli (.b, n - 1) (.c, 0) (.a, n - 1)] s) := by
  intro i hi
  refine ⟨by simp [act_toffoli], ?_, ?_⟩
  · simp only [run_cons, run_nil, act_toffoli, Prod.mk.injEq, reduceCtorEq, true_and, false_and,
      if_false]
    split_ifs
    · cases s (.c, i) <;> cases s (.b, n - 1) <;> cases s (.a, n - 1) <;> rfl
    · rfl
  · simp only [run_cons, run_nil, act_toffoli, Prod.mk.injEq, reduceCtorEq, true_and, false_and,
      if_false, if_true]
    rcases eq_or_ne i (n - 1) with rfl | hne
    · simp only [if_true, Nat.lt_irrefl, if_false, Nat.sub_self, sumBit, carry_zero, Nat.zero_add]
      cases s (.a, n - 1) <;> cases s (.b, n - 1) <;> cases s (.c, 0) <;> rfl
    · have hlt : i < n - 1 := by omega
      simp only [hne, hlt, if_true, if_false, ite_self]

/-! ## The multiplier -/

private theorem value_adds {n j : ℕ} (hj : j < n) {s s' : Factor × ℕ → Bool} (h : Adds n j s s') :
    value n (fun i ↦ s' (.a, i)) =
      (value n (fun i ↦ s (.a, i)) +
        2 ^ j * (s (.b, j)).toNat * value n fun i ↦ s (.c, i)) % 2 ^ n := by
  rw [value_inj.mpr fun i hi ↦ (h i hi).2.2]
  cases s (.b, j) with
  | false => simpa using (Nat.mod_eq_of_lt (value_lt n _)).symm
  | true =>
    simpa using value_add_shifted hj.le (fun i ↦ s (.a, i)) fun i ↦ s (.c, i)

/-- The rounds before position `j` have added the product with the bits of `b` below `j`. -/
private structure Multiplied (n j : ℕ) (a b c : ℕ → Bool) (s : Factor × ℕ → Bool) : Prop where
  sum : value n (fun i ↦ s (.a, i)) = (value n a + value j b * value n c) % 2 ^ n
  kept : ∀ i < n, s (.b, i) = b i ∧ s (.c, i) = c i

private theorem Multiplied.succ {n j : ℕ} (hj : j < n) {a b c : ℕ → Bool}
    {s s' : Factor × ℕ → Bool} (h : Multiplied n j a b c s) (hadds : Adds n j s s') :
    Multiplied n (j + 1) a b c s' where
  sum := by
    rw [value_adds hj hadds, h.sum, (h.kept j hj).1, value_inj.mpr fun i hi ↦ (h.kept i hi).2,
      Nat.mod_add_mod, value_succ]
    congr 1
    ring
  kept i hi := ⟨(hadds i hi).1.trans (h.kept i hi).1, (hadds i hi).2.1.trans (h.kept i hi).2⟩

private theorem run_multiplier {n : ℕ} (hn : 1 ≤ n) (s : Factor × ℕ → Bool) :
    Multiplied n n (fun i ↦ s (.a, i)) (fun i ↦ s (.b, i)) (fun i ↦ s (.c, i))
      (run (aEqAPlusBTimesC (Prod.mk Factor.a) (Prod.mk Factor.b) (Prod.mk Factor.c) n) s) := by
  have hloop := run_up (a := 0) (b := n - 1) (s := s)
    (P := fun j s' ↦ Multiplied n j (fun i ↦ s (.a, i)) (fun i ↦ s (.b, i)) (fun i ↦ s (.c, i)) s')
    (B := round (Prod.mk Factor.a) (Prod.mk Factor.b) (Prod.mk Factor.c) n) (Nat.zero_le _)
    ⟨by simpa using (Nat.mod_eq_of_lt (value_lt n _)).symm, fun _ _ ↦ ⟨rfl, rfl⟩⟩
    fun j s' _ hj hs' ↦ hs'.succ (by omega) (adds_round (by omega) s')
  have hlast := hloop.succ (by omega) (adds_last hn _)
  rw [aEqAPlusBTimesC, run_append]
  rwa [Nat.sub_add_cancel hn] at hlast

private theorem multiplier_below {n : ℕ} (hn : 1 ≤ n) :
    ∀ g ∈ aEqAPlusBTimesC (Prod.mk Factor.a) (Prod.mk Factor.b) (Prod.mk Factor.c) n,
      g.Below n := by
  intro g hg
  rw [aEqAPlusBTimesC, List.mem_append, List.mem_flatMap] at hg
  rcases hg with ⟨j, hj, hg⟩ | hg
  · obtain ⟨-, hj⟩ := mem_up.mp hj
    rw [round_eq (by omega), List.mem_map] at hg
    obtain ⟨g', hg', rfl⟩ := hg
    obtain ⟨g, hg, rfl⟩ := List.mem_map.mp hg'
    obtain ⟨hcontrols, htarget⟩ := addTo_below (m := n - j) (by omega) g hg
    have hshift : ∀ w : Operand × ℕ, w.2 < n - j → (shifted j w).2 < n := by
      rintro ⟨r, i⟩ hi
      replace hi : i < n - j := hi
      cases r <;> simp only [shifted] <;> omega
    refine ⟨fun c hc ↦ ?_, hshift _ htarget⟩
    rcases List.mem_cons.mp hc with rfl | hc
    · exact Nat.lt_of_lt_of_le hj (Nat.sub_le _ _)
    · obtain ⟨w, hw, rfl⟩ := List.mem_map.mp hc
      exact hshift w (hcontrols w hw)
  · simp only [List.mem_cons, List.not_mem_nil, or_false] at hg
    rcases hg with rfl | rfl | rfl <;> simp [Gate.Below, Gate.Within, toffoli] <;> omega

private theorem map_multiplier {ι κ : Type*} (f : ι → κ) (a b c : ℕ → ι) (n : ℕ) :
    (aEqAPlusBTimesC a b c n).map (Gate.map f) =
      aEqAPlusBTimesC (fun i ↦ f (a i)) (fun i ↦ f (b i)) (fun i ↦ f (c i)) n := by
  have hround : ∀ j, (round a b c n j).map (Gate.map f) =
      round (fun i ↦ f (a i)) (fun i ↦ f (b i)) (fun i ↦ f (c i)) n j := by
    intro j
    rw [round, round]
    split_ifs <;> simp [List.map_flatMap, Gate.map, toffoli, toffoli₃]
  simp [aEqAPlusBTimesC, List.map_flatMap, hround, Gate.map, toffoli]

/-- **The multiplier multiplies and adds**: the first register holds the sum with the product modulo
`2 ^ n`, and the factors are kept. -/
theorem aEqAPlusBTimesC_eq {κ : Type*} [DecidableEq κ] {n : ℕ} (hn : 1 ≤ n)
    (L : Registers Factor κ n) (s : κ → Bool) :
    let s' := run (aEqAPlusBTimesC (fun i ↦ L.wire (.a, i)) (fun i ↦ L.wire (.b, i))
      (fun i ↦ L.wire (.c, i)) n) s
    L.read .a s' = (L.read .a s + L.read .b s * L.read .c s) % 2 ^ n ∧
      L.read .b s' = L.read .b s ∧ L.read .c s' = L.read .c s := by
  intro s'
  have hs' : s' = run ((aEqAPlusBTimesC (Prod.mk Factor.a) (Prod.mk Factor.b)
      (Prod.mk Factor.c) n).map (Gate.map L.wire)) s := by
    rw [map_multiplier]
  have hruns := run_multiplier hn fun w ↦ s (L.wire w)
  have hbelow := multiplier_below hn
  refine ⟨?_, ?_, ?_⟩
  · rw [hs', L.read_run hbelow, hruns.sum]
    rfl
  · rw [hs', L.read_run hbelow, value_inj.mpr fun i hi ↦ (hruns.kept i hi).1]
    rfl
  · rw [hs', L.read_run hbelow, value_inj.mpr fun i hi ↦ (hruns.kept i hi).2]
    rfl

def threeInTurn (n : ℕ) : Registers Factor ℕ n where
  wire w := match w with
    | (.a, i) => 3 * i
    | (.b, i) => 3 * i + 1
    | (.c, i) => 3 * i + 2
  injOn := by
    rintro ⟨r, i⟩ - ⟨r', j⟩ - h
    cases r <;> cases r' <;> simp only at h <;>
      first | exact congrArg (Prod.mk _) (by omega) | omega

/-- One and two times three. -/
theorem aEqAPlusBTimesC_two_three :
    (threeInTurn 3).read .a (run (aEqAPlusBTimesC (fun i ↦ (threeInTurn 3).wire (.a, i))
      (fun i ↦ (threeInTurn 3).wire (.b, i)) (fun i ↦ (threeInTurn 3).wire (.c, i)) 3)
      fun w ↦ decide (w ∈ [0, 4, 2, 5])) = 7 :=
  (aEqAPlusBTimesC_eq (by decide) (threeInTurn 3) fun w ↦ decide (w ∈ [0, 4, 2, 5])).1

end ScaffCC.Rkqc
