import Mathlib

namespace Zgmos

-- The ways in which a function of the kernel can go wrong.
inductive Fault
  | panic       -- `KERNEL_PANIC()`, an endless loop
  | outOfBounds -- an access outside of an array or a dereferenced null pointer
  | wildPointer -- a pointer to a structure of another type
  | divByZero
  deriving DecidableEq, Repr

end Zgmos
