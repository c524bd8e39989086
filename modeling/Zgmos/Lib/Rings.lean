import Zgmos.Lib.Ring

-- Circular lists with the head nodes `H`, which have no node in common.
structure Rings (l : Links α) (H : Set α) (mem : α → List α) : Prop where
  ring  : h ∈ H → l.Ring h (mem h)
  apart : h ∈ H → h' ∈ H → h ≠ h' → List.Disjoint (h :: mem h) (h' :: mem h')

namespace Rings

-- The nodes of the lists.
def Node (H : Set α) (mem : α → List α) (n : α) : Prop :=
  ∃ h ∈ H, n ∈ h :: mem h

variable {l l' : Links α} {H : Set α} {mem mem' : α → List α} {h n a : α} {xs ys : List α}

theorem node_head (hh : h ∈ H) : Node H mem h :=
  ⟨h, hh, List.mem_cons_self⟩

theorem congr (r : Rings l H mem) (hn : ∀ n, Node H mem n → l'.next n = l.next n)
    (hp : ∀ n, Node H mem n → l'.prev n = l.prev n) : Rings l' H mem where
  apart := r.apart
  ring {h} hh := (r.ring hh).congr (fun x hx => hn x ⟨h, hh, hx⟩) fun x hx => hp x ⟨h, hh, hx⟩

theorem mono {H' : Set α} (r : Rings l H mem) (h : H' ⊆ H) : Rings l H' mem where
  ring hh          := r.ring <| h hh
  apart hh hh' hne := r.apart (h hh) (h hh') hne

-- A member of one list is in no other one.
theorem eq_of_mem (r : Rings l H mem) {h' : α} (hh : h ∈ H) (hh' : h' ∈ H) (hn : n ∈ mem h) (hn' : n ∈ mem h') :
    h = h' := by
  by_contra hne
  exact r.apart hh hh' hne (List.mem_cons_of_mem _ hn) (List.mem_cons_of_mem _ hn')

variable [DecidableEq α]

theorem node_update (hh : h ∈ H) : Node H (Function.update mem h xs) n ↔
    n ∈ h :: xs ∨ ∃ h' ∈ H, h' ≠ h ∧ n ∈ h' :: mem h' := by
  constructor
  case mp =>
    intro ⟨h', hh', hn⟩
    by_cases he : h' = h
    case pos => exact .inl <| by simpa [he] using hn
    case neg => exact .inr ⟨h', hh', he, by simpa [he] using hn⟩
  case mpr =>
    intro hn
    cases hn
    case inl hn => exact ⟨h, hh, by simpa using hn⟩
    case inr hn =>
      have ⟨h', hh', he, hn⟩ := hn
      exact ⟨h', hh', by simpa [he] using hn⟩

-- One list has changed, and its new nodes are in none of the other lists.
theorem update (r : Rings l H mem) (hr : l'.Ring h xs) (ho : ∀ h' ∈ H, h' ≠ h → l'.Ring h' (mem h'))
    (hn : ∀ n ∈ xs, n ∈ mem h ∨ ¬Node H mem n) (hh : h ∈ H) : Rings l' H (Function.update mem h xs) := by
  have hd : ∀ h' ∈ H, h' ≠ h → List.Disjoint (h :: xs) (h' :: mem h') := fun h' hh' hne n hx hx' => by
    cases hx
    case head => exact r.apart hh hh' hne.symm List.mem_cons_self hx'
    case tail hx =>
      cases hn n hx
      case inl hm => exact r.apart hh hh' hne.symm (List.mem_cons_of_mem _ hm) hx'
      case inr hm => exact hm ⟨h', hh', hx'⟩
  constructor
  case ring =>
    intro h' hh'
    by_cases he : h' = h
    case pos => rw [he, Function.update_self]; exact hr
    case neg => rw [Function.update_of_ne he]; exact ho h' hh' he
  case apart =>
    intro h₁ h₂ hh₁ hh₂ hne
    by_cases he₁ : h₁ = h
    case pos =>
      subst he₁
      rw [Function.update_self, Function.update_of_ne hne.symm]
      exact hd h₂ hh₂ hne.symm
    case neg =>
      rw [Function.update_of_ne he₁]
      by_cases he₂ : h₂ = h
      case pos =>
        subst he₂
        rw [Function.update_self]
        exact (hd h₁ hh₁ he₁).symm
      case neg =>
        rw [Function.update_of_ne he₂]
        exact r.apart hh₁ hh₂ hne

theorem insert_front (r : Rings l H mem) (hh : h ∈ H) (hn : ¬Node H mem n) :
    Rings (l.insert n h (l.next h)) H (Function.update mem h (n :: mem h)) := by
  refine r.update ((r.ring hh).insert_front fun hm => hn ⟨h, hh, hm⟩) (fun h' hh' hne => ?_) (fun m hm => ?_) hh
  case refine_1 =>
    have hd := r.apart hh hh' hne.symm
    exact (r.ring hh').insert_of_not_mem (fun hm => hn ⟨h', hh', hm⟩) (hd List.mem_cons_self)
      (hd <| (r.ring hh).next_mem_cons List.mem_cons_self)
  case refine_2 =>
    cases hm
    case head    => exact .inr hn
    case tail hm => exact .inl hm

theorem insert_back (r : Rings l H mem) (hh : h ∈ H) (hn : ¬Node H mem n) :
    Rings (l.insert n (l.prev h) h) H (Function.update mem h (mem h ++ [n])) := by
  refine r.update ((r.ring hh).insert_back fun hm => hn ⟨h, hh, hm⟩) (fun h' hh' hne => ?_) (fun m hm => ?_) hh
  case refine_1 =>
    have hd := r.apart hh hh' hne.symm
    exact (r.ring hh').insert_of_not_mem (fun hm => hn ⟨h', hh', hm⟩)
      (hd <| (r.ring hh).prev_mem_cons List.mem_cons_self) (hd List.mem_cons_self)
  case refine_2 =>
    cases List.mem_append.mp hm
    case inl hm => exact .inl hm
    case inr hm => exact .inr <| List.mem_singleton.mp hm ▸ hn

theorem remove (r : Rings l H mem) (hh : h ∈ H) (hm : mem h = xs ++ n :: ys) :
    Rings (l.unlink (l.prev n) (l.next n)) H (Function.update mem h (xs ++ ys)) := by
  have hr := r.ring hh
  have hn : n ∈ h :: mem h := by simp [hm]
  refine r.update (Links.Ring.remove (hm ▸ hr)) (fun h' hh' hne => ?_) (fun m hm' => .inl ?_) hh
  case refine_1 =>
    have hd := r.apart hh hh' hne.symm
    exact (r.ring hh').unlink_of_not_mem (hd <| hr.prev_mem_cons hn) (hd <| hr.next_mem_cons hn)
  case refine_2 =>
    rw [hm]
    simp only [List.mem_append, List.mem_cons] at hm' ⊢
    exact hm'.imp_right .inr

theorem node_init (hn : Node (insert n H) (Function.update mem n []) a) : a = n ∨ Node H mem a := by
  have ⟨h, hh, ha⟩ := hn
  by_cases he : h = n
  case pos =>
    subst he
    simp only [Function.update_self, List.mem_singleton] at ha
    exact .inl ha
  case neg =>
    rw [Function.update_of_ne he] at ha
    exact .inr ⟨h, hh.resolve_left he, ha⟩

-- A new list without members.
theorem init (r : Rings l H mem) (hn : ¬Node H mem n) :
    Rings (l.setNext n n |>.setPrev n n) (insert n H) (Function.update mem n []) := by
  have hH : n ∉ H := fun hh => hn <| node_head hh
  have ho : ∀ {a}, Node H mem a → a ≠ n := fun ha he => hn <| he ▸ ha
  have hm : ∀ h ∈ H, Function.update mem n [] h = mem h := fun h hh =>
    Function.update_of_ne (ne_of_mem_of_not_mem hh hH) ..
  have r' : Rings (l.setNext n n |>.setPrev n n) H mem :=
    r.congr (fun a ha => by simp [ho ha]) fun a ha => by simp [ho ha]
  have hd : ∀ h ∈ H, List.Disjoint [n] (h :: mem h) := fun h hh => by
    simp only [List.singleton_disjoint]
    exact fun hm => hn ⟨h, hh, hm⟩
  constructor
  case ring =>
    intro h hh
    cases hh
    case inl he =>
      subst he
      rw [Function.update_self]
      exact ⟨List.nodup_singleton h, by simp⟩
    case inr hh => rw [hm h hh]; exact r'.ring hh
  case apart =>
    intro h₁ h₂ hh₁ hh₂ hne
    cases hh₁
    case inl he₁ =>
      subst he₁
      cases hh₂
      case inl he₂ => exact absurd he₂.symm hne
      case inr hh₂ => rw [Function.update_self, hm h₂ hh₂]; exact hd h₂ hh₂
    case inr hh₁ =>
      rw [hm h₁ hh₁]
      cases hh₂
      case inl he₂ => subst he₂; rw [Function.update_self]; exact (hd h₁ hh₁).symm
      case inr hh₂ => rw [hm h₂ hh₂]; exact r.apart hh₁ hh₂ hne

section Words

-- The operations write to the nodes of the lists and to the new node only.

theorem insert_prev (r : Rings l H mem) (hh : h ∈ H) (ha : ¬Node H mem a) (hn : a ≠ n) :
    (l.insert n h (l.next h)).prev a = l.prev a :=
  Links.insert_prev hn fun he => ha ⟨h, hh, he ▸ (r.ring hh).next_mem_cons List.mem_cons_self⟩

theorem unlink_prev (r : Rings l H mem) (hh : h ∈ H) (ha : ¬Node H mem a) (hn : n ∈ mem h) :
    (l.unlink (l.prev n) (l.next n)).prev a = l.prev a :=
  Links.unlink_prev fun he => ha ⟨h, hh, he ▸ (r.ring hh).next_mem_cons (List.mem_cons_of_mem _ hn)⟩

end Words

end Rings
