import Mathlib
/-!
# Edge-triggered readiness

A descriptor that is watched with `EPOLLET` is reported when something arrives, not
while something is there. Whoever waits for it must therefore go on until it finds
nothing, or an arrival that was reported stays where it is.

`Watch` is what matters about such a descriptor. `Watch.Next` is what a step may do to
it, and `Attended` what then always holds.
-/

namespace EdgeTriggered

structure Watch where
  /-- There is something. -/
  ready : Prop
  /-- An arrival has not been reported. -/
  edge : Prop
  /-- One has been reported, and the one who waits has not found nothing since. -/
  busy : Prop

namespace Watch

/-- What is there has been reported and is being taken, or will be reported. -/
def Attended (w : Watch) : Prop := w.ready → w.edge ∨ w.busy

structure Next (w w' : Watch) : Prop where
  /-- An arrival is an edge. -/
  arrives : w'.ready → w.ready ∨ w'.edge
  /-- An edge is gone only because it is reported, or there is nothing any more. -/
  reports : w.edge → w'.ready → w'.edge ∨ w'.busy
  /-- The one who waits stops only if it finds nothing. -/
  drains : w.busy → w'.busy ∨ (w'.ready → w'.edge)

theorem Attended.next {w w' : Watch} (h : w.Attended) (hn : w.Next w') : w'.Attended := by
  intro hready
  rcases hn.arrives hready with hr | he
  · rcases h hr with he | hb
    · exact hn.reports he hready
    · exact (hn.drains hb).elim .inr fun he => .inl (he hready)
  · exact .inl he

/-- So one that sleeps has nothing to take, or will be woken. -/
theorem Attended.edge {w : Watch} (h : w.Attended) (hidle : ¬ w.busy) (hready : w.ready) : w.edge :=
  (h hready).resolve_right hidle

end Watch

end EdgeTriggered
