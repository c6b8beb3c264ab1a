import Mathlib.Logic.Equiv.Basic
import Xv6.FlowForks

namespace Xv6

namespace Flow

open Relation

variable (ρ : Text → Text)

namespace Tables

variable (t : Tables)

variable {ρ t} {concat : Concatenation} {path : Path} {output : Fd} {count i j k d : Nat}

section

variable (hρ : Function.Injective ρ)

include hρ

end

end Tables

end Flow

end Xv6
