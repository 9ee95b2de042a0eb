/-
The accounts of a bounded queue: what was offered to it, what was taken from it, what it holds, and how many it dropped.

Items leave in the order they came, save those dropped; so what was taken and what is held are
together a part of what was offered, in its order, and the number dropped is what is missing.
-/
import Mathlib.Data.List.Basic

set_option autoImplicit false

namespace Cosmic.Base

open List

variable {T : Type}

structure Ledger (T : Type) where
  offered : List T
  taken : List T
  queued : List T
  drops : ℕ

namespace Ledger

def new : Ledger T := { offered := [], taken := [], queued := [], drops := 0 }

/-- What may become of one item: one offered is queued, or queued in place of the oldest, or dropped; or the oldest is
taken. -/
inductive Move : Ledger T → Ledger T → Prop where
  | queue (l : Ledger T) (x : T) : Move l { l with offered := l.offered ++ [x], queued := l.queued ++ [x] }
  | displace (l : Ledger T) (x y : T) (rest : List T) (h : l.queued = y :: rest) :
      Move l { l with offered := l.offered ++ [x], queued := rest ++ [x], drops := l.drops + 1 }
  | discard (l : Ledger T) (x : T) : Move l { l with offered := l.offered ++ [x], drops := l.drops + 1 }
  | take (l : Ledger T) (x : T) (rest : List T) (h : l.queued = x :: rest) :
      Move l { l with taken := l.taken ++ [x], queued := rest }

/-- Nothing is lost but what is counted, and nothing is doubled. -/
structure Balanced (l : Ledger T) : Prop where
  order : (l.taken ++ l.queued).Sublist l.offered
  count : l.offered.length = (l.taken ++ l.queued).length + l.drops

theorem balanced_new : (new : Ledger T).Balanced := ⟨List.Sublist.refl _, rfl⟩

theorem Balanced.move {l l' : Ledger T} (h : l.Balanced) (hmove : Move l l') : l'.Balanced := by
  obtain ⟨horder, hcount⟩ := h
  cases hmove with
  | queue x =>
    constructor
    · rw [← append_assoc]
      exact horder.append_right [x]
    · simp only [length_append, length_singleton] at hcount ⊢
      omega
  | displace x y rest h =>
    rw [h] at horder hcount
    constructor
    · rw [← append_assoc]
      exact List.Sublist.append_right ((List.Sublist.append_left (sublist_cons_self y rest) _).trans horder) [x]
    · simp only [length_append, length_cons, length_nil] at hcount ⊢
      omega
  | discard x =>
    constructor
    · exact horder.trans (sublist_append_left _ _)
    · simp only [length_append, length_singleton] at hcount ⊢
      omega
  | take x rest h =>
    rw [h] at horder hcount
    rw [← singleton_append, ← append_assoc] at horder hcount
    exact ⟨horder, hcount⟩

theorem Balanced.all {l : Ledger T} (h : l.Balanced) (hdrops : l.drops = 0) : l.taken ++ l.queued = l.offered :=
  h.order.eq_of_length (by rw [h.count, hdrops, Nat.add_zero])

end Ledger

end Cosmic.Base
