import Mathlib

-- A memory with addresses in the natural numbers, and blocks of `n` consecutive cells in it.

abbrev Memory (α : Type) := Nat → α

abbrev Block (n : Nat) (α : Type) := Fin n → α

namespace Memory

def load (m : Memory α) (a n : Nat) : Block n α :=
  fun k => m (a + k)

def store (m : Memory α) (a : Nat) (d : Block n α) : Memory α :=
  fun x => if h : a ≤ x ∧ x - a < n then d ⟨x - a, h.2⟩ else m x

-- Writes the elements of a list from `a` on.
def write (m : Memory α) (a : Nat) (xs : List α) : Memory α :=
  m.store a xs.get

end Memory

namespace Block

-- Replaces the cells from `a` on with those of a second block.
def splice (d : Block n α) (a : Nat) (d' : Block k α) : Block n α :=
  fun i => if h : a ≤ i ∧ i - a < k then d' ⟨i - a, h.2⟩ else d i

end Block

namespace Memory

variable {m : Memory α} {a b k n : Nat} {d : Block n α} {d' : Block k α}

theorem store_of_lt (hk : k < n) : m.store a d (a + k) = d ⟨k, hk⟩ := by
  simp [store, hk]

theorem write_of_lt {xs : List α} (hk : k < xs.length) : m.write a xs (a + k) = xs[k] :=
  store_of_lt hk

theorem store_of_not (h : b < a ∨ a + n ≤ b) : m.store a d b = m b := by
  apply dif_neg
  omega

@[simp]
theorem splice_zero (d d' : Block n α) : d.splice 0 d' = d' := by
  funext i
  simp [Block.splice]

-- The beginning of a list as far as it fits into the block.
theorem splice_get (d : Block n α) (xs : List α) (h : ∀ k : Fin (min (n - a) xs.length), k < xs.length) :
    (d.splice a fun k : Fin (min (n - a) xs.length) => xs.get ⟨k, h k⟩) =
      fun i : Fin n => if a ≤ i then xs.getD (i - a) (d i) else d i := by
  funext i
  have hi := i.isLt
  by_cases ha : a ≤ i
  case neg => simp [Block.splice, ha]
  case pos =>
    by_cases hx : i - a < xs.length
    case pos =>
      have : i - a < n - a := by omega
      simp [Block.splice, ha, hx, this]
    case neg => simp [Block.splice, ha, hx]

@[simp]
theorem load_store : (m.store a d).load a n = d :=
  funext fun k => store_of_lt k.isLt

theorem load_store_disjoint (h : b + k ≤ a ∨ a + n ≤ b) : (m.store a d).load b k = m.load b k :=
  funext fun i => store_of_not <| by omega

-- A store inside of a block.
theorem load_store_splice : (m.store (a + b) d').load a n = (m.load a n).splice b d' := by
  funext i
  have he : a + i - (a + b) = i - b := by omega
  simp only [load, store, Block.splice, he, Nat.add_le_add_iff_left]

end Memory
