import Yalnix.Machine.Lawful
/-!
# Reclaiming a condition variable

`destroy_cvar` looks at its block as at a `lock_t`, so that the list it
finds empty or not is the one the second word of the block points at, where
a condition variable has nothing. It does what it is to do exactly where the
two agree.
-/

namespace Yalnix

variable {Node Addr : Type} [Paging] [Devices] [DecidableEq Node] [DecidableEq Addr]

namespace Machine

variable {m : Machine Node Addr} {es : List (Event Node Addr)} {b : Boot Node Addr} {c : ℤ}
  {cvar : Cvar Node}

end Machine

end Yalnix
