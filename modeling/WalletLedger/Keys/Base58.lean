import WalletLedger.Crypto.Sha256

/-!
# Base-58 text with a checksum

Extended keys are written in base 58, with a leading `1` for each leading zero byte, and end with
the first four bytes of the double hash of what stands before them.
-/

namespace WalletLedger.Base58

open Crypto

/-- The digits from zero to fifty-seven. -/
def alphabet : List Char :=
  "123456789ABCDEFGHJKLMNPQRSTUVWXYZabcdefghijkmnopqrstuvwxyz".toList

/-- The value of a digit. -/
def digit? (c : Char) : Option Nat := alphabet.findIdx? (· == c)

/-- The number that the digits write, the first one counting most. -/
def number? : List Char → Nat → Option Nat
  | [], acc => some acc
  | c :: cs, acc => do number? cs (58 * acc + (← digit? c))

/-- Reads digits as bytes: a zero byte for each leading `1`, then the number without leading zeros.
The number has fewer bytes than the text has digits. -/
def decode? (cs : List Char) : Option Bytes := do
  let v ← number? cs 0
  let zeros := (cs.takeWhile (· == '1')).map fun _ => (0 : UInt8)
  return zeros ++ (Bytes.ofNatBE cs.length v).dropWhile (· == 0)

/-- The first four bytes of the double hash. -/
def checksum (payload : Bytes) : Bytes := (sha256d payload).take 4

/-- Reads a text and takes its checksum off. -/
def decodeChecked? (text : String) : Option Bytes := do
  let bs ← decode? text.toList
  let payload := bs.take (bs.length - 4)
  guard (4 ≤ bs.length ∧ bs.drop (bs.length - 4) = checksum payload)
  return payload

end WalletLedger.Base58
