import ScaffCC.Lpfs.Invariant

/-!
# Whether the schedule respects the dependencies

An operation of the free list is placed only after `depsMet` has said so. An operation of a path is
placed at the counter whatever it depends on. So the schedule respects the dependencies when every
operation that one of a path depends on comes before it on the paths. When it comes after it there,
or is never placed, the schedule does not. When it is on no path, it depends on what the free list
finds for it.
-/

open Scheduling

namespace ScaffCC.Lpfs

/-- Every operation that one of the paths depends on comes before it on the paths. -/
def InOrder (body : List Call) (entries : List (ℕ × ℕ)) : Prop :=
  ∀ pre e post, entries = pre ++ e :: post → ∀ a, LastUse body a e.1 → ∃ e' ∈ pre, e'.1 = a

end ScaffCC.Lpfs
