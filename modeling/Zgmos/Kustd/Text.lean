import Zgmos.Kernel.Fault
import Zgmos.Lib.Except

-- Strings in buffers.

namespace Zgmos.Kustd

abbrev Byte := BitVec 8

-- The content of a buffer. Its size is the length of the list.
abbrev Buffer := List Byte

def get (buffer : Buffer) (i : Nat) : Except Fault Byte :=
  match buffer[i]? with
  | some c => return c
  | none   => throw .outOfBounds

def put (buffer : Buffer) (i : Nat) (c : Byte) : Except Fault Buffer :=
  if i < buffer.length then return buffer.set i c else throw .outOfBounds

def swap (buffer : Buffer) (i j : Nat) : Except Fault Buffer := do
  let t ← get buffer i
  let buffer ← put buffer i (← get buffer j)
  put buffer j t

def reverse (buffer : Buffer) (i j : Nat) : Except Fault Buffer :=
  if i < j then do reverse (← swap buffer i j) (i + 1) (j - 1) else return buffer
termination_by j - i

-- The characters in front of the terminating zero.
def cstring (buffer : Buffer) : List Byte :=
  buffer.takeWhile (· ≠ 0)

variable {pre mid post text rest : List Byte} {a b c : Byte}

theorem put_append (pre post : List Byte) (a c : Byte) : put (pre ++ a :: post) pre.length c = .ok (pre ++ c :: post) := by
  simp [put, pure, Except.pure]

theorem put_end : put pre pre.length c = .error .outOfBounds := by
  simp [put, throw, throwThe, MonadExceptOf.throw]

theorem swap_append (pre mid post : List Byte) (a b : Byte) :
    swap (pre ++ a :: mid ++ b :: post) pre.length (pre.length + mid.length + 1) =
    .ok (pre ++ b :: mid ++ a :: post) := by
  have hl : pre.length + mid.length + 1 = (pre ++ a :: mid).length := by
    simp [Nat.add_assoc]
  have hr : pre.length + mid.length + 1 = (pre ++ b :: mid).length := by
    simp [Nat.add_assoc]
  have hi : get (pre ++ a :: mid ++ b :: post) pre.length = .ok a := by
    simp [get, pure, Except.pure]
  have hj : get (pre ++ a :: mid ++ b :: post) (pre.length + mid.length + 1) = .ok b := by
    rw [get, hl, List.getElem?_append_right <| Nat.le_refl _, Nat.sub_self]
    rfl
  have hp : put (pre ++ a :: mid ++ b :: post) pre.length b = .ok (pre ++ b :: mid ++ b :: post) := by
    rw [List.append_assoc, List.append_assoc]
    exact put_append ..
  simp only [swap, hi, hj, hp, bind, Except.bind]
  rw [hr]
  exact put_append ..

theorem reverse_append (pre mid post : List Byte) :
    reverse (pre ++ mid ++ post) pre.length (pre.length + mid.length - 1) = .ok (pre ++ mid.reverse ++ post) := by
  induction mid using List.bidirectionalRec generalizing pre post
  case nil =>
    rw [reverse, if_neg (by simp)]
    rfl
  case singleton =>
    rw [reverse, if_neg (by simp)]
    rfl
  case cons_append a mid b hi =>
    have hl : pre.length + (a :: (mid ++ [b])).length - 1 = pre.length + mid.length + 1 := by
      simp [Nat.add_assoc]
    have hs := swap_append pre mid post a b
    have hi := hi (pre ++ [b]) (a :: post)
    have hj : (pre ++ [b]).length + mid.length - 1 = pre.length + mid.length := by
      simp
    rw [hj, List.length_append] at hi
    rw [hl, reverse, if_pos (by omega)]
    simp only [List.append_assoc, List.cons_append, List.nil_append] at hs hi ⊢
    simp only [hs, bind, Except.bind, Nat.add_sub_cancel]
    simpa using hi

theorem cstring_append (h : 0 ∉ text) : cstring (text ++ 0 :: rest) = text := by
  unfold cstring
  induction text
  case nil => simp
  case cons c text hi =>
    have hc : c ≠ 0 := fun he => h <| he ▸ .head _
    rw [List.cons_append, List.takeWhile_cons_of_pos (by simpa using hc), hi fun hm => h <| .tail _ hm]

end Zgmos.Kustd
