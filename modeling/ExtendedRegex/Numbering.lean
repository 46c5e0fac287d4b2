/-
Numbering items in the order in which they turn up.

* `Numbering.register` gives an item its number: the one it has, or the next one
  if it is new;
* `place?_eq_some_iff`: an item has the number `n` exactly when it is the item at
  place `n`, so no item has two numbers;
* `register_cases`: an item that has a number keeps it, and a new one is put behind
  all others.
-/
import Std.Data.HashMap

universe u

namespace ExtendedRegex

/-- Distinct items, numbered from 0. -/
structure Numbering (α : Type u) [BEq α] [Hashable α] where
  items : Array α
  places : Std.HashMap α Nat
  consistent : ∀ (a : α) (n : Nat), places[a]? = some n ↔ items[n]? = some a

namespace Numbering

variable {α : Type u} [BEq α] [Hashable α]

/-- No items. -/
def empty [LawfulBEq α] : Numbering α := ⟨#[], ∅, by simp⟩

/-- The number of an item. -/
def place? (s : Numbering α) (a : α) : Option Nat := s.places[a]?

theorem place?_eq_some_iff {s : Numbering α} {a : α} {n : Nat} :
    s.place? a = some n ↔ s.items[n]? = some a :=
  s.consistent a n

variable [LawfulBEq α]

/-- The number of an item, which is the next free one if the item is new. -/
def register (s : Numbering α) (a : α) : Numbering α × Nat :=
  match h : s.places[a]? with
  | some n => (s, n)
  | none =>
    let next := s.items.size
    (⟨s.items.push a, s.places.insert a next, fun b n => by
      have hb := s.consistent b n
      rw [show next = s.items.size from rfl, Std.HashMap.getElem?_insert, Array.getElem?_push]
      by_cases hn : n = s.items.size
      · subst hn
        by_cases hab : a = b
        · simp [hab]
        · have hsize : s.items[s.items.size]? = none := by simp
          simp only [beq_iff_eq, hab, if_false, hb, hsize, if_true, Option.some.injEq]
          simp
      · by_cases hab : a = b
        · subst hab
          have : s.items[n]? ≠ some a := fun hn => by simp [(s.consistent a n).2 hn] at h
          simp [hn, this, Ne.symm hn]
        · simp [hn, hab, hb]⟩, next)

/-- An item that has a number keeps it, and a new one is put behind all others. -/
theorem register_cases (s : Numbering α) (a : α) :
    (∃ n, s.place? a = some n ∧ s.register a = (s, n)) ∨
      s.place? a = none ∧ (s.register a).1.items = s.items.push a ∧
        (s.register a).2 = s.items.size := by
  unfold register
  split
  case h_1 n hn => exact .inl ⟨n, hn, rfl⟩
  case h_2 hnone => exact .inr ⟨hnone, rfl, rfl⟩

end Numbering

end ExtendedRegex
