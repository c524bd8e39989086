import Mathlib

-- The part of a singly linked list which starts at the pointer `p`, visits exactly the nodes `xs`
-- and ends with the pointer `q`. The null pointer is `none`.
def Segment (next : α → Option α) : Option α → List α → Option α → Prop
  | p, [],      q => p = q
  | p, x :: xs, q => p = some x ∧ Segment next (next x) xs q

abbrev Chain (next : α → Option α) (p : Option α) (xs : List α) : Prop :=
  Segment next p xs none

-- The nodes that a traversal from a given pointer reaches.
inductive Linked (next : α → Option α) : Option α → α → Prop
  | head : Linked next (some x) x
  | tail : Linked next (next x) y → Linked next (some x) y

namespace Segment

variable {next f : α → Option α} {p q : Option α} {xs ys s t : List α} {a b : α}

@[simp]
theorem nil_iff : Segment next p [] q ↔ p = q :=
  .rfl

@[simp]
theorem cons_iff : Segment next p (a :: xs) q ↔ p = some a ∧ Segment next (next a) xs q :=
  .rfl

theorem append_iff :
    Segment next p (xs ++ ys) q ↔ ∃ m, Segment next p xs m ∧ Segment next m ys q := by
  induction xs generalizing p <;> simp_all [and_assoc]

theorem congr (h : Segment next p xs q) (he : ∀ x ∈ xs, f x = next x) :
    Segment f p xs q := by
  induction xs generalizing p
  case nil => exact h
  case cons x xs hi =>
    have ⟨hp, ht⟩ := h
    refine ⟨hp, ?_⟩
    rw [he x (by simp)]
    exact hi ht fun y hy => he y (by simp [hy])

theorem split (h : Segment next p (s ++ a :: t) q) :
    Segment next p s (some a) ∧ Segment next (next a) t q := by
  have ⟨m, h₁, h₂, h₃⟩ := append_iff.mp h
  exact ⟨h₂ ▸ h₁, h₃⟩

theorem join (h₁ : Segment next p s (some a)) (h₂ : Segment next (next a) t q) :
    Segment next p (s ++ a :: t) q :=
  append_iff.mpr ⟨_, h₁, rfl, h₂⟩

end Segment

namespace Chain

variable {next f : α → Option α} {p : Option α} {xs ys s t : List α} {a b : α}

theorem unique (h₁ : Chain next p xs) (h₂ : Chain next p ys) : xs = ys := by
  induction xs generalizing p ys
  case nil =>
    cases ys
    case nil  => rfl
    case cons => simp_all [Chain]
  case cons x xs hi =>
    cases ys
    case nil => simp_all [Chain]
    case cons y ys =>
      have ⟨hx, h₁⟩ := h₁
      have ⟨hy, h₂⟩ := h₂
      cases hx.symm.trans hy
      rw [hi h₁ h₂]

theorem exists_cons (h : Chain next (some a) xs) : ∃ ys, xs = a :: ys ∧ Chain next (next a) ys := by
  cases xs
  case nil => simp [Chain] at h
  case cons x xs =>
    have ⟨hx, h⟩ := h
    cases hx
    exact ⟨xs, rfl, h⟩

theorem nodup (h : Chain next p xs) : xs.Nodup := by
  induction xs generalizing p
  case nil => exact List.nodup_nil
  case cons x xs hi =>
    have ⟨_, ht⟩ := h
    refine List.nodup_cons.mpr ⟨fun hx => ?_, hi ht⟩
    -- A second visit of `x` would leave two different lists to traverse from `x`.
    have ⟨s, t, hst⟩ := List.append_of_mem hx
    have hs : Chain next (next x) t := (Segment.split (hst ▸ ht)).2
    have := congrArg List.length (unique hs ht)
    simp [hst] at this
    omega

theorem linked_iff (h : Chain next p xs) : Linked next p a ↔ a ∈ xs := by
  constructor
  case mp =>
    intro hl
    induction hl generalizing xs
    case head =>
      cases xs
      case nil  => simp [Chain] at h
      case cons => simp_all [Chain]
    case tail hi =>
      cases xs
      case nil    => simp [Chain] at h
      case cons x xs =>
        have ⟨hx, ht⟩ := h
        cases hx
        exact List.mem_cons_of_mem _ (hi ht)
  case mpr =>
    intro hm
    induction xs generalizing p
    case nil => simp at hm
    case cons x xs hi =>
      have ⟨hx, ht⟩ := h
      subst hx
      cases hm
      case head    => exact .head
      case tail hm => exact .tail (hi ht hm)

-- Removes the node `b` by redirecting its predecessor `a`.
theorem remove_after (h : Chain next p (s ++ a :: b :: t)) (ha : f a = next b)
    (he : ∀ x ∈ s ++ t, f x = next x) : Chain f p (s ++ a :: t) := by
  have ⟨h₁, _, h₂⟩ := Segment.split h
  refine Segment.join (h₁.congr fun x hx => he x (by simp [hx])) ?_
  rw [ha]
  exact h₂.congr fun x hx => he x (by simp [hx])

-- Inserts the node `b` by redirecting its new predecessor `a`.
theorem insert_after (h : Chain next p (s ++ a :: t)) (ha : f a = some b)
    (hb : f b = next a) (he : ∀ x ∈ s ++ t, f x = next x) :
    Chain f p (s ++ a :: b :: t) := by
  have ⟨h₁, h₂⟩ := Segment.split h
  refine Segment.join (h₁.congr fun x hx => he x (by simp [hx])) ⟨ha, ?_⟩
  rw [hb]
  exact h₂.congr fun x hx => he x (by simp [hx])

end Chain
