import Zgmos.Pte.Bits

namespace Zgmos.Pte

-- The flags of a leaf: V and at least one of R, W and X are set.
def ValidFlags (flags : Word) : Prop :=
  flags.toNat < 2 ^ 10 ∧ flags &&& 1 = 1 ∧ flags &&& 0b1110 ≠ 0

instance : Decidable (ValidFlags flags) :=
  inferInstanceAs <| Decidable (_ ∧ _)

-- The table to which an entry points.
def child (pte : Word) : Option Word :=
  if pteExtractXwrv pte = pteNonLeaf then some (pteExtractNaddr pte) else none

-- The places of tables in the tree.
inductive Pos
  | root
  | mid (i : BitVec 9)
  | low (i j : BitVec 9)
  deriving DecidableEq

def Pos.next : Pos → BitVec 9 → Pos
  | root,    i => mid i
  | mid i,   j => low i j
  | low i j, _ => low i j

-- The tables of the last level have no children.
def Pos.Inner : Pos → Prop
  | low _ _      => False
  | root | mid _ => True

def table (mem : Mem) (p : Word) : Pos → Option Word
  | .root    => some p
  | .mid i   => child (mem p i)
  | .low i j => (child (mem p i)).bind fun t => child (mem t j)

-- No table is used twice, and no entry of the last level points to a table.
structure Tree (mem : Mem) (p : Word) : Prop where
  inj  : table mem p a = some t → table mem p b = some t → a = b
  leaf : table mem p (.low i j) = some t → child (mem t k) = none

variable {mem mem' : Mem} {p t va flags pte : Word} {i j k : BitVec 9} {a b : Pos} {f : Word}

theorem ValidFlags.xwrv (h : ValidFlags flags) :
    pteExtractXwrv flags ≠ pteInvalid ∧ pteExtractXwrv flags ≠ pteNonLeaf := by
  have ⟨_, hv, hr⟩ := h
  have hm : allOneMask 4 = 0b1110 ||| 1 := by decide
  have he : pteExtractXwrv flags = (flags &&& 0b1110) ||| 1 := by
    rw [pteExtractXwrv, hm, BitVec.and_or_distrib_left, hv]
  rw [he]
  refine ⟨fun h => ?_, fun h => hr ?_⟩
  case refine_1 =>
    have := congrArg (· &&& 1) h
    simp [BitVec.and_or_distrib_right, pteInvalid] at this
  case refine_2 =>
    have := congrArg (· &&& 0b1110) h
    simpa [BitVec.and_or_distrib_right, BitVec.and_assoc, pteNonLeaf] using this

theorem child_zero : child 0#64 = none := by
  decide

theorem child_leaf (h : ValidFlags flags) : child (pteNaddr pte ||| flags) = none := by
  rw [child, extractXwrv_naddr, if_neg h.xwrv.2]

theorem child_nonLeaf (h : Aligned f) : child (pteNaddr f ||| pteNonLeaf) = some f := by
  rw [child, extractXwrv_naddr, if_pos (by decide), extractNaddr_naddr (by decide), h]

@[simp]
theorem write_same : (mem.write t i pte) t i = pte := by
  simp [Mem.write]

theorem write_ne (h : t = f → i ≠ j) : (mem.write t i pte) f j = mem f j := by
  by_cases ht : f = t
  case pos =>
    subst ht
    have := h rfl
    simp [Mem.write, this.symm]
  case neg => simp [Mem.write, ht]

@[simp]
theorem clear_same : (mem.clear f) f i = 0 := by
  simp [Mem.clear]

theorem clear_ne (h : t ≠ f) : (mem.clear f) t i = mem t i := by
  simp [Mem.clear, h]

theorem table_congr (h : ∀ t i, child (mem' t i) = child (mem t i)) : table mem' p = table mem p := by
  funext a
  cases a <;> simp [table, h]

-- The tree does not change as long as no entry that points to a table is involved.
theorem table_write (h₁ : child (mem t i) = none) (h₂ : child pte = none) :
    table (mem.write t i pte) p = table mem p := by
  apply table_congr
  intro f j
  by_cases h : t = f ∧ i = j
  case pos => obtain ⟨rfl, rfl⟩ := h; simp [h₁, h₂]
  case neg => rw [write_ne (by tauto)]

theorem Tree.write (w : Tree mem p) (h₁ : child (mem t i) = none) (h₂ : child pte = none) :
    Tree (mem.write t i pte) p where
  inj := by
    rw [table_write h₁ h₂]
    exact w.inj
  leaf {i' j' f k} h := by
    rw [table_write h₁ h₂] at h
    by_cases hf : t = f ∧ i = k
    case pos => obtain ⟨rfl, rfl⟩ := hf; simp [h₂]
    case neg => rw [write_ne (by tauto), w.leaf h]

-- A page that the tree does not use.
def Fresh (mem : Mem) (p f : Word) : Prop :=
  Aligned f ∧ ∀ a, table mem p a ≠ some f

-- The entry `i` of the table `t` is made to point to the empty table `f`.
def Mem.grow (mem : Mem) (t : Word) (i : BitVec 9) (f : Word) : Mem :=
  (mem.clear f).write t i (pteNaddr f ||| pteNonLeaf)

theorem grow_same (ht : t ≠ f) : (mem.grow t i f) f k = 0 := by
  rw [Mem.grow, write_ne (absurd · ht), clear_same]

theorem grow_ne {t' : Word} (hf : t' ≠ f) (h : t = t' → i ≠ j) : (mem.grow t i f) t' j = mem t' j := by
  rw [Mem.grow, write_ne h, clear_ne hf]

theorem grow_entry : (mem.grow t i f) t i = pteNaddr f ||| pteNonLeaf := by
  simp [Mem.grow]

namespace Pos.Inner

theorem next_ne (h : a.Inner) : a.next i ≠ a := by
  cases a <;> simp_all [Inner, next]

theorem next_inj (hb : b.Inner) (ha : a.Inner) : b.next j = a.next i ↔ b = a ∧ j = i := by
  cases a <;> cases b <;> simp_all [Inner, next]

theorem table_next (h : a.Inner) :
    table mem p (a.next i) = (table mem p a).bind fun t => child (mem t i) := by
  cases a <;> simp_all [Inner, next, table]

end Pos.Inner

section Grow

variable (w : Tree mem p) (hf : Fresh mem p f) (ha : a.Inner) (ht : table mem p a = some t)
  (hn : child (mem t i) = none)

include w hf ha ht hn

theorem Tree.table_grow_next (hb : b.Inner)
    (hi : table (mem.grow t i f) p b = if b = a.next i then some f else table mem p b) :
    table (mem.grow t i f) p (b.next j) =
      if b.next j = a.next i then some f else table mem p (b.next j) := by
  simp only [hb.table_next, hi, hb.next_inj ha]
  by_cases he : b = a.next i
  case pos =>
    -- The new table is empty, and there was no table before.
    have htf : t ≠ f := fun h => hf.2 a (h ▸ ht)
    have hna : ¬(b = a ∧ j = i) := fun h => ha.next_ne (he ▸ h.1)
    simp [he, grow_same htf, child_zero, ha.table_next, ht, hn, he ▸ hna]
  case neg =>
    rw [if_neg he]
    cases hb' : table mem p b
    case none =>
      rw [if_neg]
      case hnc => exact fun h => by simp [h.1, ht] at hb'
      rfl
    case some t' =>
      by_cases hab : b = a ∧ j = i
      case pos =>
        obtain ⟨rfl, rfl⟩ := hab
        cases ht.symm.trans hb'
        simp [grow_entry, child_nonLeaf hf.1]
      case neg =>
        have htf : t' ≠ f := fun h => hf.2 b (h ▸ hb')
        have hne : t = t' → i ≠ j := fun h hij => hab ⟨w.inj hb' (h ▸ ht), hij.symm⟩
        simp [hab, grow_ne htf hne]

-- Growing adds one table, at a place where there was none.
theorem Tree.table_grow (b : Pos) :
    table (mem.grow t i f) p b = if b = a.next i then some f else table mem p b := by
  have hr : table (mem.grow t i f) p .root = if .root = a.next i then some f else table mem p .root := by
    cases a <;> simp [table, Pos.next]
  have hm (i') := w.table_grow_next hf ha ht hn (b := .root) (j := i') trivial hr
  cases b
  case root   => exact hr
  case mid i' => exact hm i'
  case low i' j' => exact w.table_grow_next hf ha ht hn (b := .mid i') (j := j') trivial (hm i')

theorem Tree.grow : Tree (mem.grow t i f) p where
  inj {b t' b'} hb hb' := by
    rw [w.table_grow hf ha ht hn] at hb hb'
    have := hf.2
    have := w.inj (a := b) (b := b') (t := t')
    grind
  leaf {i' j' t' k} h := by
    rw [w.table_grow hf ha ht hn] at h
    split at h
    case isTrue =>
      cases h
      have htf : t ≠ f := fun he => hf.2 a (he ▸ ht)
      exact grow_same htf ▸ child_zero
    case isFalse =>
      rw [grow_ne, w.leaf h]
      case hf => exact fun he => hf.2 _ (he ▸ h)
      case h  =>
        intro he
        have := w.inj ht (he ▸ h)
        subst this
        exact ha.elim

end Grow

end Zgmos.Pte
