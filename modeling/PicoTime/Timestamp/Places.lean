import PicoTime.ArgumentError

/-!
# The Leading Places

A timestamp is written with two, three or four of its places. Those left out
are cut off and never rounded into those kept, so what is written is the
greatest time of its resolution that is not later.

## Main definitions

* `Timestamp.encode`: The leading places of a timestamp.
-/

namespace PicoTime

/-- The leading places of a timestamp, two, three or four of them. -/
def Timestamp.encode (t : Timestamp) (length : Int) :
    Except ArgumentError (List Int) :=
  if length = 2 ∨ length = 3 ∨ length = 4 then
    .ok ((t.truncate length).toList.take length.toNat)
  else .error (ArgumentError.lengthOutside length).worded

end PicoTime
