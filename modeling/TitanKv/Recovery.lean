import TitanKv.Trim

/-! # Restarts from a log cut short

`Recovers` says what a restart from a part of the log should make of it: replay
ends in a database the run went through, and lines that are appended later
continue from there. The databases are the dispatcher's own, which trims on
`LTRIM` where replay has no arm for it. So the part has to end at a line, and
the trims among its lines must not matter. -/

namespace TitanKv
open Utf8 Local TwoPhase

section Recovery
variable (env : Env) (clock : Nat → SystemTime) {requests further : List Request}
  {db db' restored : Memory} {logs : List Command} {file : Bytes}

variable {env}

variable {clock}

end Recovery

section Instances

end Instances

end TitanKv
