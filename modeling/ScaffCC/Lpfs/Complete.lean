import ScaffCC.Lpfs.Invariant

/-!
# Which operations are placed

No operation is placed twice, since `sched_op` looks first. Whether all are placed is decided by the
counter `sched_ops`. It goes up by one for every entry of a path, also for one that is on a path
already, and the loop over the free list is entered only if it is still below the number of
operations. So with enough repeated entries the loop is skipped, and the operations that are on no
path are left out.
-/

namespace ScaffCC.Lpfs

end ScaffCC.Lpfs
