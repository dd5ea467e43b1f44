import Offside.Number.Decimal

/-!
A store that numbers its items from zero, in the order in which they are added.
-/

namespace Offside

structure Store (α : Type) where
  items : Array α
  deriving DecidableEq, Repr

structure NoToken where
  id : Number
  deriving DecidableEq, Repr

namespace NoToken

def message (e : NoToken) : Text := Text.ofString "Invalid TokenId: " ++ e.id.text

end NoToken

namespace Store

variable {α : Type}

def empty : Store α := ⟨#[]⟩

def ofList (items : List α) : Store α := ⟨items.toArray⟩

def toList (s : Store α) : List α := s.items.toList

def size (s : Store α) : Nat := s.items.size

def add (s : Store α) (item : α) : Store α := ⟨s.items.push item⟩

def get? (s : Store α) (id : Nat) : Option α := s.items[id]?

def get (s : Store α) (id : Number) : Except NoToken α :=
  match id.toInt? with
  | some (.ofNat i) =>
    match s.get? i with
    | some item => .ok item
    | none => .error ⟨id⟩
  | _ => .error ⟨id⟩

def inRange (s : Store α) (id : Number) : Bool :=
  match id.floor? with
  | some i => 0 ≤ i && i < s.size
  | none => false

@[simp] theorem toList_ofList (items : List α) : (ofList items).toList = items := by
  simp [ofList, toList]

@[simp] theorem toList_add (s : Store α) (item : α) :
    (s.add item).toList = s.toList ++ [item] := by
  simp [add, toList]

@[simp] theorem size_add (s : Store α) (item : α) : (s.add item).size = s.size + 1 := by
  simp [add, size]

end Store

end Offside
