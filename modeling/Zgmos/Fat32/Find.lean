import Zgmos.Fat32.Iter
import Zgmos.Kernel.Utils

-- The search for a name in a directory, and for a path.

namespace Zgmos.Fat32

-- A string without the zero at its end.
abbrev Name := List Byte

-- `strcmp` returns zero. There is no zero in the name.
def isString (m : Memory Byte) (name : Name) : Bool :=
  (List.range <| name.length + 1).map m = name ++ [0]

variable {fs : Fat32Fs}

-- The last object that has been found is left in `obj`.
def findInDir (fuel : Nat) (fn : Name) : (n : Nat) → DirectoryIter → Fat32Obj → Prog fs (Bool × Fat32Obj)
  | 0,     _,    _   => .fail .panic
  | n + 1, iter, obj => do
    match ← fat32IterNext fuel iter obj with
    | none             => return (false, obj)
    | some (iter, obj) =>
      if isString obj.longFn fn then
        return (true, obj)
      else
        findInDir fuel fn n iter obj

def fat32FindInDir (fuel : Nat) (parent : Fat32Obj) (fn : Name) (obj : Fat32Obj) : Prog fs (Bool × Fat32Obj) :=
  findInDir fuel fn fuel (fat32IterStart parent) obj

def slash : Byte :=
  0x2f

-- The loop of `fat32_get`. The rest of the path begins at `s`.
def getFrom (fuel : Nat) (parent : Fat32Obj) (path : Name) (obj : Fat32Obj) : Prog fs (Bool × Fat32Obj) :=
  if path = [] then
    return (false, obj)
  else do
    let (ret, obj) ← fat32FindInDir fuel parent (path.takeWhile (· ≠ slash)) obj
    match _ : path.dropWhile (· ≠ slash) with
    | []         => return (ret, obj)
    | _ :: path' => if ret ∧ obj.type = .directory then getFrom fuel obj path' obj else return (false, obj)
termination_by path.length
decreasing_by
  have := (path.dropWhile_suffix (· ≠ slash)).length_le
  simp_all

-- The path is copied to an object of `kmalloc`.
def fat32Get (fuel : Nat) (parent : Fat32Obj) (path : Name) (obj : Fat32Obj) : Prog fs (Bool × Fat32Obj) :=
  if kmallocMax < path.length + 1 then .fail .outOfBounds else getFrom fuel parent path obj

end Zgmos.Fat32
