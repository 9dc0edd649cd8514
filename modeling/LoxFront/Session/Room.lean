import LoxFront.Session.Bytes
/-!
# Room

A writer takes bytes while it has room. What does not fit is cut off: the
bytes that fitted stay written, the rest is lost, and the delivery is
incomplete. Delivering in pieces comes to the same as delivering at once
(`Room.deliver_append`), so where a writer's text is cut does not depend on
how it was handed over.
-/

namespace LoxFront

/-- How many bytes a writer still takes. -/
inductive Room where
  | unlimited
  | bytes (n : Nat)
  deriving DecidableEq

/-- What became of bytes that were handed to a writer. -/
structure Delivery where
  /-- The bytes that were written. -/
  accepted : Bytes
  /-- The room that is left. -/
  room : Room
  /-- Whether all bytes were written. -/
  complete : Bool
  deriving DecidableEq

namespace Room

/-- **Delivering bytes**: the first ones, as many as there is room for,
are written. Writing nothing never fails. -/
def deliver (data : Bytes) : Room → Delivery
  | unlimited => ⟨data, unlimited, true⟩
  | bytes n => ⟨data.take n, bytes (n - data.length), decide (data.length ≤ n)⟩

/-- Two deliveries, one behind the other, write what one delivery of both
writes, leave the same room, and are both complete if that one is. -/
theorem deliver_append (first second : Bytes) (room : Room) :
    room.deliver (first ++ second) =
      let one := room.deliver first
      let two := one.room.deliver second
      ⟨one.accepted ++ two.accepted, two.room, one.complete && two.complete⟩ := by
  cases room with
  | unlimited => simp [deliver]
  | bytes n =>
    simp only [deliver, List.take_append, List.length_append, Delivery.mk.injEq, true_and,
      bytes.injEq, ← Bool.decide_and]
    exact ⟨by omega, decide_eq_decide.2 (by omega)⟩

end Room

end LoxFront
