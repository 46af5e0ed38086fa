import SymbolicRegression.Fault

/-!
# Storage

Rows of items are stored in one piece, and the bytes of a piece are counted by a signed word of
64 bits. A longer row is refused before anything is done for it.

## Main definitions

* `SymbolicRegression.Storage.limit` — the greatest number of bytes of a row.
* `SymbolicRegression.Storage.reserve` — refuse a row that is too long.
-/

set_option autoImplicit false

namespace SymbolicRegression.Storage

/-- The greatest number of bytes that a row takes. -/
def limit : Nat := 9223372036854775807

/-- Refuse a row of `count` items of `width` bytes each if it takes more bytes than the limit. -/
def reserve (width count : Nat) : Except Fault Unit :=
  if width * count ≤ limit then .ok () else .error (.rowTooLong width count)

theorem reserve_eq_ok_iff (width count : Nat) :
    reserve width count = .ok () ↔ width * count ≤ limit := by
  unfold reserve
  split <;> simp_all

end SymbolicRegression.Storage
