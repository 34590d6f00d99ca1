import Mathlib.Data.List.Nodup
import Mathlib.Tactic.Common

/-!
# Service in the order of arrival

`Fifo arrivals served waiting`: what has been served and what is waiting, in this order, are among what has
arrived, in the order of arrival.  Some arrivals may have left without having been served.

* `Fifo.arrive`, `Fifo.leave`, `Fifo.serve` — the three things that can happen;
* `Fifo.nodup` — who arrives once is served at most once.
-/

namespace TorEbpf.Lib

variable {α β : Type*} {arrivals served waiting : List α}

/-- Served first, then still waiting: all of it in the order of arrival. -/
def Fifo (arrivals served waiting : List α) : Prop := (served ++ waiting).Sublist arrivals

theorem Fifo.nil : Fifo ([] : List α) [] [] := List.Sublist.slnil

theorem Fifo.arrive (h : Fifo arrivals served waiting) (a : α) :
    Fifo (arrivals ++ [a]) served (waiting ++ [a]) := by
  unfold Fifo
  rw [← List.append_assoc]
  exact h.append (List.Sublist.refl [a])

theorem Fifo.leave {waiting' : List α} (h : Fifo arrivals served waiting)
    (hleave : waiting'.Sublist waiting) : Fifo arrivals served waiting' :=
  ((List.Sublist.refl served).append hleave).trans h

theorem Fifo.serve {a : α} (h : Fifo arrivals served (a :: waiting)) :
    Fifo arrivals (served ++ [a]) waiting := by
  unfold Fifo
  rwa [List.append_assoc, List.singleton_append]

theorem Fifo.served_sublist (h : Fifo arrivals served waiting) : served.Sublist arrivals :=
  (List.sublist_append_left served waiting).trans h

theorem Fifo.waiting_sublist (h : Fifo arrivals served waiting) : waiting.Sublist arrivals :=
  (List.sublist_append_right served waiting).trans h

/-- **Nobody is served twice**, nor waits after having been served. -/
theorem Fifo.nodup (h : Fifo arrivals served waiting) (key : α → β) (hkeys : (arrivals.map key).Nodup) :
    ((served ++ waiting).map key).Nodup :=
  hkeys.sublist (h.map key)

end TorEbpf.Lib
