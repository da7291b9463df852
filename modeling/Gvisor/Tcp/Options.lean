import Gvisor.Lib.BigEndian
import Gvisor.Lib.Outcome
import Gvisor.Tcp.SeqNum

/-! TCP options (pkg/tcpip/header/tcp.go and the option builders of
pkg/tcpip/transport/tcp/connect.go). The builders write into a buffer of
`maxOptionSize` bytes from `optionPool`, one encoder after another at the
offset so far; an encoder looks only at the room left after that offset and
writes its bytes at its front, so here it is a function of that room that
returns the bytes it writes. The parsers walk kind and length bytes; a read
past the end of the slice, where Go panics, is a panic, and each loop has as
many turns as the slice has bytes, one more than it can take. -/

namespace Tcp

open SeqNum BigEndian

def tcpOptionNOP : UInt8 := 1
def tcpOptionTS : UInt8 := 8
def tcpOptionSACK : UInt8 := 5

def tcpMaxSACKBlocks : ℕ := 4
/-- `maxOptionSize`, the length of the buffers of `optionPool`. -/
def maxOptionSize : ℕ := 40

structure SACKBlock where
  Start : Value
  End : Value
  deriving DecidableEq, Repr

def encodeTSOption (tsVal tsEcr : UInt32) (room : ℕ) : List UInt8 :=
  if room < 10 then [] else [tcpOptionTS, 10] ++ putUint32 tsVal ++ putUint32 tsEcr

/-- `EncodeSACKBlocks`: as many blocks as fit, at most `TCPMaxSACKBlocks`. -/
def encodeSACKBlocks (sackBlocks : List SACKBlock) (room : ℕ) : List UInt8 :=
  if sackBlocks.length = 0 then []
  else
    let l := if sackBlocks.length > tcpMaxSACKBlocks then tcpMaxSACKBlocks else sackBlocks.length
    let l := if (room - 2) / 8 < l then (room - 2) / 8 else l
    if l = 0 then []
    else [tcpOptionSACK, (l * 8 + 2).toUInt8] ++
      (sackBlocks.take l).flatMap fun b => putUint32 b.Start ++ putUint32 b.End

def encodeNOP (room : ℕ) : List UInt8 := if room = 0 then [] else [tcpOptionNOP]

/-- `offset += Encode...(options[offset:])`: the encoder writes into the
room left in the buffer. -/
def encodeAt (enc : ℕ → List UInt8) (options : List UInt8) : List UInt8 :=
  options ++ enc (maxOptionSize - options.length)

/-- `AddTCPOptionPadding` on the buffer: the number of NOPs that align
`offset` to four bytes (`-offset & 3`, the residue of `-offset` mod 4), a
panic where they do not fit. -/
def addTCPOptionPadding (offset : ℕ) : Outcome Unit ℕ :=
  let paddingToAdd := ((-(offset : Int)) % 4).toNat
  if offset + paddingToAdd > maxOptionSize then .panic else .ok paddingToAdd

/-- `endpoint.makeOptions` on the endpoint's `sendTSOk` and `sackPermitted`,
its `timestamp()` and `recentTS`. -/
def makeOptions (sendTSOk sackPermitted : Bool) (timestamp recentTS : UInt32)
    (sackBlocks : List SACKBlock) : Outcome Unit (List UInt8) :=
  let options : List UInt8 := []
  let options :=
    if sendTSOk then
      options |> encodeAt encodeNOP |> encodeAt encodeNOP |> encodeAt (encodeTSOption timestamp recentTS)
    else options
  let options :=
    if sackPermitted && sackBlocks.length > 0 then
      options |> encodeAt encodeNOP |> encodeAt encodeNOP |> encodeAt (encodeSACKBlocks sackBlocks)
    else options
  do
    let delta ← addTCPOptionPadding options.length
    if delta ≠ 0 then .panic else .ok options

end Tcp
