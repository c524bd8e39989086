import Mathlib

namespace Zgmos

def pageSize : Nat :=
  4096

-- The number of values of a `uint64_t`.
@[irreducible]
def u64 : Nat :=
  2 ^ 64

def alignTo (x a : Nat) : Nat :=
  if x % a = 0 then x else (x + a - x % a) % u64

-- The largest size of an object of `kmalloc`.
def kmallocMax : Nat :=
  2048

end Zgmos
