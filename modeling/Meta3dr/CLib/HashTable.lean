import Mathlib

/-!
# Hash tables

A hash table keeps its elements in chains, one for each value of the hash function. An element is
looked for in the chain of its own hash value only.

## Main definitions

* `HashTable`: a row of chains
* `test`, `add`: whether an element is there, and an element added at the head of its chain

## Main results

* `test_add`: an added element is found, and every other as before
-/

namespace CLib

/-- A row of chains. -/
structure HashTable (α : Type*) (num : ℕ) where
  head : Vector (List α) num

namespace HashTable

variable {α : Type*} {num : ℕ}

/-- The table with empty chains. -/
def empty : HashTable α num := ⟨Vector.replicate num []⟩

variable [DecidableEq α] (hash : α → Fin num)

/-- The element is in the chain of its hash value. -/
def test (t : HashTable α num) (a : α) : Bool := a ∈ t.head[hash a]

/-- The element is added at the head of the chain of its hash value. -/
def add (t : HashTable α num) (a : α) : HashTable α num :=
  ⟨t.head.set (hash a) (a :: t.head[hash a])⟩

@[simp] theorem test_empty (a : α) : (empty : HashTable α num).test hash a = false := by
  simp [test, empty]

@[simp] theorem test_add (t : HashTable α num) (a b : α) :
    (t.add hash a).test hash b = (b == a || t.test hash b) := by
  by_cases hhash : (hash a : ℕ) = hash b
  · have heq : hash a = hash b := Fin.ext hhash
    simp [test, add, heq, Bool.decide_or, beq_eq_decide]
  · have hne : b ≠ a := by
      rintro rfl
      exact hhash rfl
    simp [test, add, hhash, hne]

end HashTable

end CLib
