/-!
Finite maps as lists of keys and values. Each key occurs once; `put` keeps its place.
-/

namespace Formula

abbrev Table (κ α : Type) := List (κ × α)

namespace Table

variable {κ α : Type} [DecidableEq κ]

def get? (t : Table κ α) (k : κ) : Option α :=
  match t with
  | [] => none
  | (j, a) :: t => if j = k then some a else get? t k

def put (t : Table κ α) (k : κ) (a : α) : Table κ α :=
  match t with
  | [] => [(k, a)]
  | (j, b) :: t => if j = k then (k, a) :: t else (j, b) :: put t k a

def erase (t : Table κ α) (k : κ) : Table κ α := t.filter fun e => e.1 ≠ k

def modify (t : Table κ α) (k : κ) (f : α → α) : Table κ α :=
  t.map fun e => if e.1 = k then (e.1, f e.2) else e

@[simp] theorem get?_nil (k : κ) : get? ([] : Table κ α) k = none := rfl

@[simp] theorem get?_put (t : Table κ α) (k j : κ) (a : α) :
    (t.put k a).get? j = if k = j then some a else t.get? j := by
  induction t with
  | nil => rfl
  | cons e t ih => grind [put, get?]

@[simp] theorem get?_erase (t : Table κ α) (k j : κ) :
    (t.erase k).get? j = if k = j then none else t.get? j := by
  induction t with
  | nil => simp [erase]
  | cons e t ih => grind [erase, get?]

@[simp] theorem get?_modify (t : Table κ α) (k j : κ) (f : α → α) :
    (t.modify k f).get? j = if k = j then (t.get? j).map f else t.get? j := by
  induction t with
  | nil => simp [modify]
  | cons e t ih => grind [modify, get?]

end Table

end Formula
