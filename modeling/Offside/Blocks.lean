/-!
The widths of the open blocks. The base block of width zero is always open; every other block is
wider than the one around it. Blocks beyond the capacity are not tracked, so a later dedent closes
the nearest block that is.
-/

namespace Offside

structure Blocks where
  capacity : Nat
  /-- The widths of the blocks opened above the base, innermost first. -/
  opened : List Nat
  deriving DecidableEq, Repr

namespace Blocks

def defaultCapacity : Nat := 100

def maxCapacity : Nat := 255

def base (capacity : Nat) : Blocks := ⟨capacity, []⟩

def entries (b : Blocks) : List Nat := 0 :: b.opened.reverse

def current (b : Blocks) : Nat := b.opened.headD 0

def depth (b : Blocks) : Nat := b.opened.length + 1

def isFull (b : Blocks) : Bool := b.capacity ≤ b.depth

def push? (b : Blocks) (width : Nat) : Option Blocks :=
  if b.isFull || width ≤ b.current then none
  else some { b with opened := width :: b.opened }

def pop (b : Blocks) : Blocks := { b with opened := b.opened.tail }

def reset (b : Blocks) : Blocks := { b with opened := [] }

def extend (b : Blocks) : List Nat → Blocks
  | [] => b
  | width :: rest =>
    match b.push? width with
    | some b => b.extend rest
    | none => b

/-- Replaces the open blocks by the longest usable beginning of `widths`: one that starts at zero,
keeps increasing and fits. The base survives even if nothing else does. -/
def restore (b : Blocks) : List Nat → Blocks
  | 0 :: widths => b.reset.extend widths
  | _ => b.reset

def pushSigned? (b : Blocks) (width : Int) : Option Blocks := b.push? width.toNat

def restoreSigned (b : Blocks) (widths : List Int) : Blocks :=
  b.restore ((widths.takeWhile (0 ≤ ·)).map Int.toNat)

@[simp] theorem entries_base (n : Nat) : (base n).entries = [0] := rfl

@[simp] theorem length_entries (b : Blocks) : b.entries.length = b.depth := by
  simp [entries, depth]

@[simp] theorem entries_reset (b : Blocks) : b.reset.entries = [0] := rfl

@[simp] theorem capacity_pop (b : Blocks) : b.pop.capacity = b.capacity := rfl

@[simp] theorem length_opened_pop (b : Blocks) : b.pop.opened.length = b.opened.length - 1 := by
  simp [pop]

theorem opened_ne_nil_of_lt_current {b : Blocks} {n : Nat} (h : n < b.current) :
    b.opened ≠ [] := by
  rintro h0
  simp [current, h0] at h

theorem opened_of_push? {b b' : Blocks} {width : Nat} (h : b.push? width = some b') :
    b'.opened = width :: b.opened := by
  simp only [push?] at h
  split at h
  · simp at h
  · simp only [Option.some.injEq] at h
    simp [← h]

theorem entries_of_push? {b b' : Blocks} {width : Nat} (h : b.push? width = some b') :
    b'.entries = b.entries ++ [width] := by
  simp [entries, opened_of_push? h]

end Blocks

end Offside
