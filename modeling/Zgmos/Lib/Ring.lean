import Mathlib

-- Doubly linked nodes. Each node `a` stores the two pointers `prev a` and `next a`.
@[ext]
structure Links (α) where
  prev : α → α
  next : α → α

namespace Links

def swap (l : Links α) : Links α where
  prev := l.next
  next := l.prev

variable [DecidableEq α]

def setPrev (l : Links α) (a b : α) : Links α :=
  { l with prev := Function.update l.prev a b }

def setNext (l : Links α) (a b : α) : Links α :=
  { l with next := Function.update l.next a b }

-- Links the new node `n` between the nodes `p` and `q`.
def insert (l : Links α) (n p q : α) : Links α :=
  l.setPrev n p |>.setNext n q |>.setNext p n |>.setPrev q n

-- Makes the nodes `p` and `q` neighbours.
def unlink (l : Links α) (p q : α) : Links α :=
  l.setPrev q p |>.setNext p q

variable {l l' : Links α} {a b h n p q : α} {xs ys : List α}

omit [DecidableEq α] in
@[simp]
theorem swap_swap : l.swap.swap = l :=
  rfl

omit [DecidableEq α] in
@[simp]
theorem swap_next : l.swap.next = l.prev :=
  rfl

@[simp]
theorem setPrev_next : (l.setPrev a b).next = l.next :=
  rfl

@[simp]
theorem setNext_prev : (l.setNext a b).prev = l.prev :=
  rfl

@[simp]
theorem setPrev_prev : (l.setPrev a b).prev = Function.update l.prev a b :=
  rfl

@[simp]
theorem setNext_next : (l.setNext a b).next = Function.update l.next a b :=
  rfl

theorem insert_next (ha₁ : a ≠ n) (ha₂ : a ≠ p) : (l.insert n p q).next a = l.next a := by
  simp [insert, ha₁, ha₂]

theorem insert_prev (ha₁ : a ≠ n) (ha₂ : a ≠ q) : (l.insert n p q).prev a = l.prev a := by
  simp [insert, ha₁, ha₂]

theorem unlink_next (ha : a ≠ p) : (l.unlink p q).next a = l.next a := by
  simp [unlink, ha]

theorem unlink_prev (ha : a ≠ q) : (l.unlink p q).prev a = l.prev a := by
  simp [unlink, ha]

theorem insert_swap : (l.insert n p q).swap = l.swap.insert n q p := by
  simp [insert, swap, setPrev, setNext]

-- The nodes `a :: xs` are linked to each other in both directions.
omit [DecidableEq α] in
def Path (l : Links α) : α → List α → Prop
  | _, []      => True
  | a, b :: xs => l.next a = b ∧ l.prev b = a ∧ Path l b xs

-- The nodes `xs` form a circular list with the head node `h`.
structure Ring (l : Links α) (h : α) (xs : List α) : Prop where
  nodup : (h :: xs).Nodup
  path  : l.Path h (xs ++ [h])

namespace Path

instance decidable : (a : α) → (xs : List α) → Decidable (l.Path a xs)
  | _, []      => .isTrue trivial
  | a, b :: xs =>
    have := decidable b xs
    inferInstanceAs <| Decidable (l.next a = b ∧ l.prev b = a ∧ l.Path b xs)

omit [DecidableEq α]

@[simp]
theorem nil : l.Path a [] :=
  trivial

@[simp]
theorem cons_iff : l.Path a (b :: xs) ↔ l.next a = b ∧ l.prev b = a ∧ l.Path b xs :=
  .rfl

theorem append_iff : l.Path a (xs ++ ys) ↔ l.Path a xs ∧ l.Path (xs.getLastD a) ys := by
  induction xs generalizing a
  case nil => simp
  case cons x xs hi => simp only [List.cons_append, cons_iff, hi, List.getLastD_cons, and_assoc]

theorem congr (h : l.Path a xs) (hn : ∀ x ∈ (a :: xs).dropLast, l'.next x = l.next x)
    (hp : ∀ x ∈ xs, l'.prev x = l.prev x) : l'.Path a xs := by
  induction xs generalizing a
  case nil => exact trivial
  case cons x xs hi =>
    have ⟨h₁, h₂, h₃⟩ := h
    refine ⟨hn a (by simp) ▸ h₁, hp x (by simp) ▸ h₂, ?_⟩
    exact hi h₃ (fun y hy => hn y (by simp_all)) (fun y hy => hp y (by simp [hy]))

theorem swap (h : l.Path a (xs ++ [b])) : l.swap.Path b (xs.reverse ++ [a]) := by
  induction xs generalizing a
  case nil => simp_all [Links.swap]
  case cons x xs hi =>
    have ⟨h₁, h₂, h₃⟩ := h
    rw [List.reverse_cons]
    refine append_iff.mpr ⟨hi h₃, ?_⟩
    simpa [Links.swap] using ⟨h₂, h₁⟩

end Path

namespace Ring

instance (h : α) (xs : List α) : Decidable (l.Ring h xs) :=
  decidable_of_iff ((h :: xs).Nodup ∧ l.Path h (xs ++ [h])) ⟨fun ⟨h, p⟩ => ⟨h, p⟩, fun r => ⟨r.nodup, r.path⟩⟩

omit [DecidableEq α]

theorem congr (r : l.Ring h xs) (hn : ∀ x ∈ h :: xs, l'.next x = l.next x)
    (hp : ∀ x ∈ h :: xs, l'.prev x = l.prev x) : l'.Ring h xs where
  nodup := r.nodup
  path  := by
    refine r.path.congr (fun x hx => hn x ?_) (fun x hx => hp x ?_)
    case refine_1 => rwa [← List.cons_append, List.dropLast_concat] at hx
    case refine_2 => simpa [or_comm] using hx

theorem swap (r : l.Ring h xs) : l.swap.Ring h xs.reverse where
  nodup := by simpa using r.nodup
  path  := r.path.swap

-- The nodes of a list are determined by its head.
theorem unique (r : l.Ring h xs) (r' : l.Ring h ys) : xs = ys := by
  have hp : ∀ (xs ys : List α) (a : α), h ∉ xs → h ∉ ys → l.Path a (xs ++ [h]) → l.Path a (ys ++ [h]) → xs = ys := by
    intro xs
    induction xs
    case nil =>
      intro ys a _ hy p q
      cases ys
      case nil  => rfl
      case cons => exact absurd (List.mem_cons.mpr <| .inl <| p.1.symm.trans q.1) hy
    case cons x xs hi =>
      intro ys a hx hy p q
      cases ys
      case nil       => exact absurd (List.mem_cons.mpr <| .inl <| q.1.symm.trans p.1) hx
      case cons y ys =>
        have he : x = y := p.1.symm.trans q.1
        subst he
        exact congrArg _ <| hi ys x (List.not_mem_of_not_mem_cons hx) (List.not_mem_of_not_mem_cons hy) p.2.2 q.2.2
  exact hp xs ys h (List.nodup_cons.mp r.nodup).1 (List.nodup_cons.mp r'.nodup).1 r.path r'.path

theorem next_head (r : l.Ring h xs) : l.next h = xs.headD h := by
  have := r.path
  cases xs <;> simp_all

theorem prev_head (r : l.Ring h xs) : l.prev h = xs.getLastD h := by
  have := r.swap.next_head
  simpa [List.head?_reverse, List.getLastD_eq_getLast?, List.headD_eq_head?_getD] using this

theorem next_head_eq_iff (r : l.Ring h xs) : l.next h = h ↔ xs = [] := by
  rw [r.next_head]
  have := r.nodup
  cases xs <;> simp_all [eq_comm]

theorem next_mem (r : l.Ring h (xs ++ n :: ys)) : l.next n = ys.headD h := by
  have := Path.append_iff.mp (List.append_assoc .. ▸ r.path)
  cases ys <;> simp_all

theorem prev_mem (r : l.Ring h (xs ++ n :: ys)) : l.prev n = xs.getLastD h := by
  have := Path.append_iff.mp (List.append_assoc .. ▸ r.path)
  simp_all

theorem next_mem_cons (r : l.Ring h xs) (ha : a ∈ h :: xs) : l.next a ∈ h :: xs := by
  cases ha
  case head => rw [r.next_head]; cases xs <;> simp
  case tail ha =>
    have ⟨s, t, hst⟩ := List.append_of_mem ha
    subst hst
    rw [r.next_mem]
    cases t <;> simp

theorem prev_mem_cons (r : l.Ring h xs) (ha : a ∈ h :: xs) : l.prev a ∈ h :: xs := by
  simpa using r.swap.next_mem_cons (by simpa using ha)

theorem next_prev (r : l.Ring h xs) (ha : a ∈ h :: xs) : l.next (l.prev a) = a := by
  have hp := r.path
  cases ha
  case head =>
    rw [r.prev_head]
    exact (Path.append_iff.mp hp).2.1
  case tail ha =>
    have ⟨s, t, hst⟩ := List.append_of_mem ha
    subst hst
    rw [r.prev_mem]
    rw [List.append_assoc, Path.append_iff] at hp
    exact hp.2.1

theorem prev_next (r : l.Ring h xs) (ha : a ∈ h :: xs) : l.prev (l.next a) = a :=
  r.swap.next_prev (by simpa using ha)

theorem next_ne (r : l.Ring h xs) (ha : a ∈ xs) : l.next a ≠ a := by
  have ⟨s, t, hst⟩ := List.append_of_mem ha
  subst hst
  have := r.nodup
  rw [r.next_mem]
  cases t <;> simp only [List.headD_nil, List.headD_cons] <;> grind

theorem prev_ne (r : l.Ring h xs) (ha : a ∈ xs) : l.prev a ≠ a :=
  r.swap.next_ne (by simpa using ha)

theorem getLastD_mem_cons (a : α) (xs : List α) : xs.getLastD a ∈ a :: xs := by
  induction xs generalizing a
  case nil          => simp
  case cons x xs hi => rw [List.getLastD_cons]; exact List.mem_cons_of_mem _ (hi x)

theorem getLastD_not_mem_dropLast (h : (a :: xs).Nodup) : xs.getLastD a ∉ (a :: xs).dropLast := by
  induction xs generalizing a
  case nil => simp
  case cons x xs hi =>
    have := getLastD_mem_cons x xs
    have := hi (List.nodup_cons.mp h).2
    grind

variable [DecidableEq α]

-- `list_add` links a new node between the head and its successor.
theorem insert_front (r : l.Ring h xs) (hn : n ∉ h :: xs) :
    (l.insert n h (l.next h)).Ring h (n :: xs) where
  nodup := by
    have := r.nodup
    grind
  path := by
    have hd := r.nodup
    have hp := r.path
    rw [r.next_head]
    cases xs
    case nil => simp_all [insert]
    case cons x xs =>
      have hp : l.Path x (xs ++ [h]) := hp.2.2
      have hx : x ∉ xs ++ [h] := by grind
      simp only [List.headD_cons, List.cons_append, Path.cons_iff]
      refine ⟨by simp [insert], by simp [insert]; grind, by simp [insert]; grind, by simp [insert], ?_⟩
      refine hp.congr (fun y hy => ?_) (fun y hy => ?_)
      case refine_1 =>
        rw [← List.cons_append, List.dropLast_concat] at hy
        exact insert_next (by grind) (by grind)
      case refine_2 => exact insert_prev (by grind) (by grind)

-- `list_add_tail` is `list_add` in the mirrored list.
theorem insert_back (r : l.Ring h xs) (hn : n ∉ h :: xs) :
    (l.insert n (l.prev h) h).Ring h (xs ++ [n]) := by
  have := r.swap.insert_front (n := n) (by simpa using hn) |>.swap
  simpa [insert_swap] using this

theorem remove (r : l.Ring h (xs ++ n :: ys)) :
    (l.unlink (l.prev n) (l.next n)).Ring h (xs ++ ys) where
  nodup := by
    have := r.nodup
    grind
  path := by
    have hd := r.nodup
    have hp := r.path
    have hm := getLastD_mem_cons h xs
    rw [r.prev_mem, r.next_mem, List.append_assoc, Path.append_iff]
    rw [List.append_assoc, Path.append_iff, List.cons_append, Path.cons_iff] at hp
    have ⟨h₁, _, _, h₂⟩ := hp
    refine ⟨h₁.congr (fun x hx => unlink_next ?_) fun x hx => unlink_prev ?_, ?_⟩
    case refine_1 =>
      rintro rfl
      refine getLastD_not_mem_dropLast ?_ hx
      grind
    case refine_2 => cases ys <;> grind
    case refine_3 =>
      cases ys
      case nil => simp [unlink]
      case cons y ys =>
        have h₂ : l.Path y (ys ++ [h]) := h₂.2.2
        refine ⟨by simp [unlink], by simp [unlink], ?_⟩
        refine h₂.congr (fun x hx => unlink_next ?_) fun x hx => unlink_prev ?_
        case refine_1 =>
          rw [← List.cons_append, List.dropLast_concat] at hx
          grind
        case refine_2 => simp only [List.headD_cons]; grind

-- The operations leave every list alone which contains none of the nodes they write to.
theorem insert_of_not_mem (r : l.Ring h xs) (hn : n ∉ h :: xs) (hp : p ∉ h :: xs)
    (hq : q ∉ h :: xs) : (l.insert n p q).Ring h xs :=
  r.congr (fun _ hx => insert_next (ne_of_mem_of_not_mem hx hn) (ne_of_mem_of_not_mem hx hp))
    (fun _ hx => insert_prev (ne_of_mem_of_not_mem hx hn) (ne_of_mem_of_not_mem hx hq))

theorem unlink_of_not_mem (r : l.Ring h xs) (hp : p ∉ h :: xs) (hq : q ∉ h :: xs) :
    (l.unlink p q).Ring h xs :=
  r.congr (fun _ hx => unlink_next (ne_of_mem_of_not_mem hx hp))
    (fun _ hx => unlink_prev (ne_of_mem_of_not_mem hx hq))

end Ring
end Links
