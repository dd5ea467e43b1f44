import Offside.Trace

/-!
Snapshots of a scanner: a version, the depth, the deferred width as a signed 16-bit number with
minus one for none, and the widths of the blocks as unsigned 16-bit numbers, low byte first. Widths
are written while they fit the budget; the depth is always that of the scanner. Restoring never
fails: from malformed bytes it takes the most it can.
-/

namespace Offside

abbrev Bytes := List UInt8

namespace Snapshot

def version : UInt8 := 1

def encode16 (n : Int) : Bytes :=
  [(n % 256).toNat.toUInt8, (n / 256 % 256).toNat.toUInt8]

def decode16 (low high : UInt8) : Nat := low.toNat + 256 * high.toNat

def signed16 (n : Nat) : Int := if n < 0x8000 then n else (n : Int) - 0x10000

def pairs : Bytes → List Nat
  | low :: high :: rest => decode16 low high :: pairs rest
  | _ => []

def header (depth : Nat) (deferred : Option Int) : Bytes :=
  version :: depth.toUInt8 :: encode16 (deferred.getD (-1))

def room (size : Nat) : Nat := (size - Budget.headerSize) / 2

end Snapshot

/-- A snapshot asked for a buffer of a size that does not exist. -/
structure NoBuffer where
  asked : Number
  deriving DecidableEq, Repr

namespace NoBuffer

def message (e : NoBuffer) : Text :=
  Text.ofString "Invalid typed array length: " ++ e.asked.text

end NoBuffer

namespace Scanner

open Snapshot

/-- The snapshot within `size` bytes, with a notice if not all widths fit. -/
def snapshotWithin (s : Scanner) (size : Nat) : Bytes × List Notice :=
  let entries := s.blocks.entries
  let written := entries.take (room size)
  (header entries.length s.deferred ++ written.flatMap fun (width : Nat) => encode16 width,
    if written.length < entries.length then [.truncated entries.length written.length] else [])

def snapshot (s : Scanner) : Except NoBuffer (Bytes × List Notice) :=
  match s.budget with
  | .bytes size => .ok (s.snapshotWithin size)
  | .unspecified => .ok ([], [])
  | .unavailable asked => .error ⟨asked⟩

def deferredOf : Bytes → Option Int
  | _ :: _ :: low :: high :: _ =>
    let width := signed16 (decode16 low high)
    if width < 0 then none else some width
  | _ => none

/-- Restores a snapshot. The scanner is reset first, so nothing of what it held remains. -/
def restore (s : Scanner) (bytes : Bytes) : Scanner × List Notice :=
  let s := s.reset
  match bytes with
  | [] => (s, [])
  | first :: rest =>
    if first = version then
      let declared := (rest.headD 0).toNat
      let widths := (pairs (bytes.drop Budget.headerSize)).take (min declared s.blocks.capacity)
      let blocks := s.blocks.restore widths
      ({ s with blocks, deferred := deferredOf bytes },
        if 0 < declared ∧ blocks.depth ≠ declared then [.malformed declared blocks.depth] else [])
    else (s, [.unknownVersion first.toNat])

end Scanner

end Offside
