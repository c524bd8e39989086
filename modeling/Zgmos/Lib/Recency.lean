import Mathlib

-- The most recently used values of a sequence of uses.

namespace List

variable {α : Type*} [DecidableEq α]

-- The `n` last used values of which the least recently used one comes first.
def recent (n : Nat) (xs : List α) : List α :=
  xs.dedup.rtake n

variable {n : Nat} {xs : List α} {x : α}

-- Each value is at the place of its last use.
theorem dedup_concat : (xs ++ [x]).dedup = xs.dedup.erase x ++ [x] := by
  induction xs
  case nil => simp
  case cons y xs hi =>
    by_cases hy : y ∈ xs
    case pos => rw [cons_append, dedup_cons_of_mem <| mem_append_left _ hy, dedup_cons_of_mem hy, hi]
    case neg =>
      rw [cons_append, dedup_cons_of_notMem hy]
      by_cases hx : y = x
      case pos => rw [dedup_cons_of_mem <| by simp [hx], hi, hx, erase_cons_head, erase_of_not_mem <| by simpa [hx] using hy]
      case neg => rw [dedup_cons_of_notMem <| by simp [hx, hy], hi, erase_cons_tail <| by simpa using hx, cons_append]

theorem dedup_concat_of_notMem (h : x ∉ xs) : (xs ++ [x]).dedup = xs.dedup ++ [x] := by
  rw [dedup_concat, erase_of_not_mem (mt mem_dedup.mp h)]

theorem length_dedup_concat_of_mem (h : x ∈ xs) : (xs ++ [x]).dedup.length = xs.dedup.length := by
  have h := mem_dedup.mpr h
  have := length_pos_of_mem h
  rw [dedup_concat, length_append, length_erase_of_mem h, length_singleton]
  omega

theorem length_dedup_le {ys : List α} (h : xs ⊆ ys) : xs.dedup.length ≤ ys.dedup.length :=
  (nodup_dedup xs).subperm (fun _ hx => mem_dedup.mpr <| h <| mem_dedup.mp hx) |>.length_le

-- The values have different images.
theorem map_erase_of_nodup {β : Type*} [DecidableEq β] {f : α → β} (h : (xs.map f).Nodup) (hx : x ∈ xs) :
    (xs.erase x).map f = (xs.map f).erase (f x) := by
  induction xs
  case nil => exact absurd hx not_mem_nil
  case cons y xs hi =>
    rw [map_cons, nodup_cons] at h
    cases mem_cons.mp hx
    case inl he => simp [he]
    case inr hx =>
      have hf : f y ≠ f x := fun he => h.1 <| he ▸ mem_map_of_mem hx
      have hy : y ≠ x := fun he => hf <| congrArg f he
      rw [erase_cons_tail <| by simpa using hy, map_cons, map_cons, erase_cons_tail <| by simpa using hf, hi h.2 hx]

omit [DecidableEq α] in
theorem rtake_append {ys zs : List α} (hl : zs.length ≤ n) (hz : zs.length < n → ys = []) : (ys ++ zs).rtake n = zs := by
  cases Nat.lt_or_eq_of_le hl
  case inl h => rw [hz h, nil_append, rtake, Nat.sub_eq_zero_of_le hl, drop_zero]
  case inr h => rw [rtake, length_append, h, Nat.add_sub_cancel, drop_left]

@[simp]
theorem recent_nil : recent n ([] : List α) = [] := by
  simp [recent]

theorem recent_nodup : (recent n xs).Nodup :=
  (nodup_dedup xs).sublist <| drop_sublist ..

-- The values before the recent ones. There are none if there is room left.
theorem exists_dedup_eq (n : Nat) (xs : List α) : ∃ ys, xs.dedup = ys ++ recent n xs ∧
    (recent n xs).length ≤ n ∧ ((recent n xs).length < n → ys = []) := by
  refine ⟨xs.dedup.take (xs.dedup.length - n), (take_append_drop ..).symm, ?_, fun h => ?_⟩
  all_goals rw [recent, rtake, length_drop] at *
  case refine_1 => omega
  case refine_2 => rw [show xs.dedup.length - n = 0 by omega, take_zero]

-- A value which is used again moves to the end.
theorem recent_concat_mem (h : x ∈ recent n xs) : recent n (xs ++ [x]) = (recent n xs).erase x ++ [x] := by
  have ⟨ys, he, hl, hy⟩ := exists_dedup_eq n xs
  have hx : x ∉ ys := fun hx => (nodup_append.mp <| he ▸ nodup_dedup xs).2.2 x hx x h rfl
  have hc : ((recent n xs).erase x ++ [x]).length = (recent n xs).length := by
    have := length_pos_of_mem h
    rw [length_append, length_erase_of_mem h, length_singleton]
    omega
  rw [recent, dedup_concat, he, erase_append_right _ hx, append_assoc]
  exact rtake_append (hc.le.trans hl) fun hn => hy <| hc ▸ hn

theorem recent_concat_of_lt (h : x ∉ recent n xs) (hl : (recent n xs).length < n) :
    recent n (xs ++ [x]) = recent n xs ++ [x] := by
  have ⟨ys, he, _, hy⟩ := exists_dedup_eq n xs
  rw [hy hl, nil_append] at he
  rw [recent, dedup_concat, he, erase_of_not_mem h]
  exact @rtake_append α n [] _ (by simpa using hl) fun _ => rfl

-- The least recently used value makes room for a new one.
theorem recent_concat_of_eq (hn : 0 < n) (h : x ∉ recent n xs) (hl : (recent n xs).length = n) :
    recent n (xs ++ [x]) = (recent n xs).tail ++ [x] := by
  have ⟨ys, he, _, _⟩ := exists_dedup_eq n xs
  have ⟨zs, hz⟩ : ∃ zs, xs.dedup.erase x = zs ++ recent n xs := by
    by_cases hx : x ∈ ys
    case pos => exact ⟨ys.erase x, by rw [he, erase_append_left _ hx]⟩
    case neg => exact ⟨ys, by rw [he, erase_append_right _ hx, erase_of_not_mem h]⟩
  rw [recent, dedup_concat, hz]
  cases hr : recent n xs
  case nil =>
    rw [hr] at hl
    exact absurd hl hn.ne
  case cons y zs' =>
    rw [hr, length_cons] at hl
    rw [append_assoc, cons_append, append_cons, tail_cons]
    exact rtake_append (by simp; omega) fun hc => by simp at hc; omega

end List
