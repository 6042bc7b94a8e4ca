import AflnetLegion.Mutation.Values

open Overwrite Words

namespace aflnet

section bits

variable {buf bytes : List UInt8} {i k n : Nat} {f : Flip}

end bits

section words

variable {order : Order} {buf : List UInt8} {i k n size half : Nat} {x y : BitVec 32}

end words

end aflnet
