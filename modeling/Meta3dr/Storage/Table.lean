import Mathlib

/-!
# Partition tables

A partition table assigns extents of a disk to numbers. The extents of a table are not empty and
never overlap: a new partition takes the first free number, and is refused when its extent is
empty or meets an existing one. What a region of the disk holds is recorded by extent, so that it outlives its entry in the
table; writing an extent spoils every other extent that meets it.

## Main definitions

* `Extent`, `Extent.Meets`: ranges of bytes, and overlap
* `Table ι`: non-overlapping extents, numbered by `ι`
* `Table.remove`, `Table.insert`: removing a number, and adding an extent at the first free one
* `Regions.write`: overwriting one extent

## Main results

* `Table.insert_of_fits`, `Table.insert_of_not_fits`: an insertion takes the first free number,
  or changes nothing
* `Regions.write_of_not_meets`: an extent that does not meet the one written keeps its content
-/

namespace Storage

/-- The bytes of a disk from `start` up to `stop`. -/
structure Extent where
  start : ℕ
  stop : ℕ
  deriving DecidableEq

/-- Two extents overlap. -/
def Extent.Meets (e f : Extent) : Prop := e.start < f.stop ∧ f.start < e.stop

instance (e f : Extent) : Decidable (e.Meets f) := inferInstanceAs (Decidable (_ ∧ _))

theorem Extent.Meets.symm {e f : Extent} (h : e.Meets f) : f.Meets e := ⟨h.2, h.1⟩

/-- Non-empty extents under the numbers `ι`, no two of which overlap. -/
@[ext]
structure Table (ι : Type) where
  entry : ι → Option Extent
  proper : ∀ i e, entry i = some e → e.start < e.stop
  apart : ∀ i j e f, i ≠ j → entry i = some e → entry j = some f → ¬ e.Meets f

namespace Table

variable {ι : Type} [DecidableEq ι]

/-- Two numbers with one extent are equal. -/
theorem entry_injective (t : Table ι) {i j : ι} {e : Extent} (hi : t.entry i = some e)
    (hj : t.entry j = some e) : i = j := by
  by_contra hij
  exact t.apart i j e e hij hi hj ⟨t.proper i e hi, t.proper i e hi⟩

theorem entry_of_update_none {f : ι → Option Extent} {i j : ι} {e : Extent}
    (h : Function.update f i none j = some e) : f j = some e := by
  by_cases hji : j = i
  · simp [hji] at h
  · rwa [Function.update_of_ne hji] at h

/-- Remove the entry of a number. -/
def remove (t : Table ι) (i : ι) : Table ι where
  entry := Function.update t.entry i none
  proper := fun j e hj => t.proper j e (entry_of_update_none hj)
  apart := fun j k e f hjk hj hk =>
    t.apart j k e f hjk (entry_of_update_none hj) (entry_of_update_none hk)

@[simp] theorem remove_self (t : Table ι) (i : ι) : (t.remove i).entry i = none := by
  simp [remove]

theorem remove_of_ne (t : Table ι) {i j : ι} (h : j ≠ i) : (t.remove i).entry j = t.entry j := by
  simp [remove, h]

theorem remove_eq_self (t : Table ι) {i : ι} (h : t.entry i = none) : t.remove i = t := by
  ext1
  simp [remove, ← h]

/-- The first of `numbers` without an entry. -/
def firstFree (numbers : List ι) (t : Table ι) : Option ι :=
  numbers.find? fun i => (t.entry i).isNone

/-- A non-empty extent that meets no entry of the table. -/
def Fits (t : Table ι) (e : Extent) : Prop :=
  e.start < e.stop ∧ ∀ i f, t.entry i = some f → ¬ e.Meets f

theorem Fits.remove {t : Table ι} {e : Extent} (h : t.Fits e) (i : ι) : (t.remove i).Fits e :=
  ⟨h.1, fun j f hj => h.2 j f (entry_of_update_none hj)⟩

instance [Fintype ι] (t : Table ι) (e : Extent) : Decidable (t.Fits e) :=
  decidable_of_iff (e.start < e.stop ∧ ∀ i, ∀ f ∈ t.entry i, ¬ e.Meets f)
    (by simp [Fits, Option.mem_def])

/-- The table with `e` under the free number `i`. -/
def set (t : Table ι) (i : ι) (e : Extent) (h : t.Fits e) : Table ι where
  entry := Function.update t.entry i (some e)
  proper := by
    intro j f hj
    by_cases hji : j = i
    · subst hji
      rw [Function.update_self, Option.some.injEq] at hj
      exact hj ▸ h.1
    · exact t.proper j f (by rwa [Function.update_of_ne hji] at hj)
  apart := by
    intro j k f g hjk hj hk
    by_cases hji : j = i <;> by_cases hki : k = i
    · exact absurd (hji.trans hki.symm) hjk
    · subst hji
      rw [Function.update_self, Option.some.injEq] at hj
      rw [Function.update_of_ne hki] at hk
      exact hj ▸ h.2 k g hk
    · subst hki
      rw [Function.update_self, Option.some.injEq] at hk
      rw [Function.update_of_ne hji] at hj
      exact fun hm => h.2 j f hj (hk ▸ hm.symm)
    · rw [Function.update_of_ne hji] at hj
      rw [Function.update_of_ne hki] at hk
      exact t.apart j k f g hjk hj hk

/-- Add an extent at the first free number; nothing changes when there is none or when the
extent meets an entry. -/
def insert [Fintype ι] (numbers : List ι) (t : Table ι) (e : Extent) : Table ι :=
  match t.firstFree numbers with
  | none => t
  | some i => if h : t.Fits e then t.set i e h else t

section Insert

variable [Fintype ι] {numbers : List ι} {t : Table ι} {e : Extent}

theorem insert_of_fits {i : ι} (hi : t.firstFree numbers = some i) (h : t.Fits e) :
    (t.insert numbers e).entry = Function.update t.entry i (some e) := by
  simp only [insert, hi, dif_pos h]
  rfl

theorem insert_of_not_fits (h : ¬ t.Fits e) : t.insert numbers e = t := by
  unfold insert
  split
  · rfl
  · rw [dif_neg h]

/-- An extent that is already an entry is not added again. -/
theorem insert_of_entry {i : ι} (hi : t.entry i = some e) : t.insert numbers e = t :=
  insert_of_not_fits fun h => h.2 i e hi ⟨h.1, h.1⟩

/-- An insertion keeps every entry. -/
theorem insert_entry_of_some {i : ι} {f : Extent} (hi : t.entry i = some f) :
    (t.insert numbers e).entry i = some f := by
  unfold insert
  split
  · exact hi
  · rename_i j hj
    split_ifs with h
    · have hij : i ≠ j := by
        rintro rfl
        simpa [hi] using List.find?_some hj
      simpa [set, hij] using hi
    · exact hi

/-- An entry after an insertion is an earlier one, or the inserted extent where it fits. -/
theorem entry_of_insert {i : ι} {f : Extent} (hi : (t.insert numbers e).entry i = some f) :
    t.entry i = some f ∨ f = e ∧ t.Fits e := by
  unfold insert at hi
  split at hi
  · exact Or.inl hi
  · rename_i j hj
    split_ifs at hi with h
    · by_cases hij : i = j
      · subst hij
        simp only [set, Function.update_self, Option.some.injEq] at hi
        exact Or.inr ⟨hi.symm, h⟩
      · exact Or.inl (by simpa [set, hij] using hi)
    · exact Or.inl hi

end Insert

end Table

/-- What each extent of a disk holds. -/
abbrev Regions (A : Type) := Extent → Option A

/-- Overwrite an extent: every other extent that meets it is spoiled. -/
def Regions.write {A : Type} (r : Regions A) (e : Extent) (a : Option A) : Regions A :=
  fun f => if f = e then a else if f.Meets e then none else r f

namespace Regions

variable {A : Type} (r : Regions A) {e f : Extent} (a : Option A)

@[simp] theorem write_self : r.write e a e = a := by simp [write]

theorem write_of_not_meets (h : ¬ f.Meets e) (hne : f ≠ e) : r.write e a f = r f := by
  simp [write, h, hne]

end Regions

end Storage
