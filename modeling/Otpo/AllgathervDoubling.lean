import Otpo.AllgathervNeighbors
import Otpo.Library.BitPartner
import Mathlib.Tactic.IntervalCases

/-!
# Recursive doubling

With a power of two of ranks each rank exchanges all it has with the rank that
differs in one bit. The blocks of a message are taken as one piece of the
buffer, so they have to follow one another there.
-/

set_option autoImplicit false

namespace Otpo.AllgathervDoubling
open MessagePassing WrapAround BitPartner Otpo.MpiCalls Otpo.Allgatherv Otpo.AllgathervPlan
open Otpo.AllgathervRotation Otpo.AllgathervNeighbors

variable {A : Type} {c : Call A} {rbuf : ℕ → Buffer A} {size n i p q r : ℕ}

variable (c rbuf)

end Otpo.AllgathervDoubling
