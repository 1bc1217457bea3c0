import ScaffCC.Reversible.Carry
import ScaffCC.Reversible.Circuit

/-!
# Registers

Registers of `n` wires each, no two of which share a wire. A circuit on registers is written for the
wires named by a register and a position, and does the same on the wires of the registers.
-/

namespace ScaffCC.Reversible

/-- Registers `R` of `n` wires each. -/
structure Registers (R κ : Type*) (n : ℕ) where
  wire : R × ℕ → κ
  injOn : Set.InjOn wire {w | w.2 < n}

variable {R κ : Type*} {n : ℕ}

def Registers.read (L : Registers R κ n) (r : R) (s : κ → Bool) : ℕ :=
  value n fun i ↦ s (L.wire (r, i))

def Gate.Below (n : ℕ) (g : Gate (R × ℕ)) : Prop := g.Within {w | w.2 < n}

variable [DecidableEq R] [DecidableEq κ]

/-- **A circuit does on registers what it does on positions.** -/
theorem Registers.run_wire (L : Registers R κ n) {gs : List (Gate (R × ℕ))}
    (hgs : ∀ g ∈ gs, g.Below n) (s : κ → Bool) (r : R) {i : ℕ} (hi : i < n) :
    run (gs.map (Gate.map L.wire)) s (L.wire (r, i)) =
      run gs (fun w ↦ s (L.wire w)) (r, i) :=
  run_map L.injOn hgs (fun _ _ ↦ rfl) (r, i) hi

theorem Registers.read_run (L : Registers R κ n) {gs : List (Gate (R × ℕ))}
    (hgs : ∀ g ∈ gs, g.Below n) (s : κ → Bool) (r : R) :
    L.read r (run (gs.map (Gate.map L.wire)) s) =
      value n fun i ↦ run gs (fun w ↦ s (L.wire w)) (r, i) :=
  value_inj.mpr fun _ hi ↦ L.run_wire hgs s r hi

end ScaffCC.Reversible
