import YbeSms.Guarantees.SingleModel
import YbeSms.Guarantees.TrailPicture
import YbeSms.Guarantees.WritesOnce

/-!
# The loop over `solve`

Source: ybe-sms/src/solveCadicalClass.cpp:210-220; solveGeneral.cpp:97-183;
solveGeneral.hpp:43. The header says that `check` excludes what it prints. Only with
`--allModels` it does; then it never accepts, and the loop is left after one call of
`solve`. Without `--allModels` the loop goes on after the answer 10, and the same
matrix can be written again.
-/

namespace YbeSms.Source

variable {n : Nat}

namespace Interface

variable {s : Session n} {before : Bool} {x x' : Interface n}

end Interface

end YbeSms.Source

namespace YbeSms.Guarantees

open YbeSms.Library YbeSms.Abstract YbeSms.Source YbeSms.Source.MinCheck Equiv

variable {n : Nat}

section Run

variable {s : Session n} {before : Bool} {σ : System n}

end Run

end YbeSms.Guarantees
