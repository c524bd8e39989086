import Zgmos.Kernel.List
import Zgmos.Lib.Rings

-- The operations on the lists of a memory with many lists.

namespace Zgmos

open Rings (Node)

-- The loop of `list_for_each_safe`. The body may change everything, `links` is the part with the nodes.
def listForEachSafeLoop [DecidableEq α] (links : σ → Links α) (body : α → σ → σ) (head : α) :
    (fuel : Nat) → (pos n : α) → σ → Option σ
  | 0,        _,   _, _ => none
  | fuel + 1, pos, n, s =>
    if pos = head then
      some s
    else
      let s := body pos s
      listForEachSafeLoop links body head fuel n ((links s).next n) s

def listForEachSafe [DecidableEq α] (links : σ → Links α) (body : α → σ → σ) (head : α) (fuel : Nat) (s : σ) :
    Option σ :=
  let pos := (links s).next head
  let n := (links s).next pos
  listForEachSafeLoop links body head fuel pos n s

-- The list with the head `h` becomes `xs`, and all other lists remain as they are.
structure Becomes (l : Links α) (H : Set α) (mem : α → List α) (l' : Links α) (h : α) (xs : List α)
    [DecidableEq α] : Prop where
  rings   : Rings l' H (Function.update mem h xs)
  inverse : ∀ a, Node H (Function.update mem h xs) a → l'.next (l'.prev a) = a ∧ l'.prev (l'.next a) = a
  others  : ∀ h' ∈ H, h' ≠ h → ∀ a ∈ h' :: mem h', l'.next a = l.next a ∧ l'.prev a = l.prev a

-- The body of a traversal deletes the current node or leaves it in its list. It may overwrite a node that it deletes.
def DeletesCurrent [DecidableEq α] (links : σ → Links α) (body : α → σ → σ) (del : α → Bool) : Prop :=
  ∀ pos s, if del pos then
    ∀ a ≠ pos, (links (body pos s)).next a = (listDel (links s) pos).next a ∧
      (links (body pos s)).prev a = (listDel (links s) pos).prev a
  else
    links (body pos s) = links s

variable [DecidableEq α] {l l' l'' : Links α} {H : Set α} {mem : α → List α} {h n : α} {xs ys : List α}
  {links : σ → Links α} {body : α → σ → σ} {del : α → Bool} {s : σ} {fuel : Nat}

theorem Becomes.of_rings (r : Rings l' H (Function.update mem h xs))
    (ho : ∀ h' ∈ H, h' ≠ h → ∀ a ∈ h' :: mem h', l'.next a = l.next a ∧ l'.prev a = l.prev a) :
    Becomes l H mem l' h xs where
  rings := r
  inverse a ha := by
    have ⟨h', hh', ha⟩ := ha
    exact ⟨(r.ring hh').next_prev ha, (r.ring hh').prev_next ha⟩
  others := ho

theorem Becomes.refl (r : Rings l H mem) : Becomes l H mem l h (mem h) :=
  .of_rings (by rwa [Function.update_eq_self]) fun _ _ _ _ _ => ⟨rfl, rfl⟩

theorem Becomes.trans (c : Becomes l H mem l' h xs) (c' : Becomes l' H (Function.update mem h xs) l'' h ys) :
    Becomes l H mem l'' h ys := by
  apply Becomes.of_rings
  case r => simpa only [Function.update_idem] using c'.rings
  case ho =>
    intro h' hh' hne a ha
    have ⟨hn, hp⟩ := c.others h' hh' hne a ha
    have ⟨hn', hp'⟩ := c'.others h' hh' hne a <| by rwa [Function.update_of_ne hne]
    exact ⟨hn'.trans hn, hp'.trans hp⟩

section Operations

variable (r : Rings l H mem) (hh : h ∈ H)

include r hh

omit [DecidableEq α] in
-- A node of another list is none of the nodes of this one.
theorem ne_of_mem_ring {a b h' : α} (hh' : h' ∈ H) (hne : h' ≠ h) (ha : a ∈ h' :: mem h') (hb : b ∈ h :: mem h) :
    a ≠ b :=
  fun he => r.apart hh' hh hne ha <| he ▸ hb

theorem listAdd_becomes (hn : ¬Node H mem n) : Becomes l H mem (listAdd l n h) h (n :: mem h) := by
  apply Becomes.of_rings <| r.insert_front hh hn
  intro h' hh' hne a ha
  have hna : a ≠ n := fun he => hn ⟨h', hh', he ▸ ha⟩
  have hx := (r.ring hh).next_mem_cons List.mem_cons_self
  exact ⟨Links.insert_next hna <| ne_of_mem_ring r hh hh' hne ha List.mem_cons_self,
    Links.insert_prev hna <| ne_of_mem_ring r hh hh' hne ha hx⟩

theorem listAddTail_becomes (hn : ¬Node H mem n) : Becomes l H mem (listAddTail l n h) h (mem h ++ [n]) := by
  apply Becomes.of_rings <| r.insert_back hh hn
  intro h' hh' hne a ha
  have hna : a ≠ n := fun he => hn ⟨h', hh', he ▸ ha⟩
  have hx := (r.ring hh).prev_mem_cons List.mem_cons_self
  exact ⟨Links.insert_next hna <| ne_of_mem_ring r hh hh' hne ha hx,
    Links.insert_prev hna <| ne_of_mem_ring r hh hh' hne ha List.mem_cons_self⟩

theorem listDel_becomes (hm : mem h = xs ++ n :: ys) : Becomes l H mem (listDel l n) h (xs ++ ys) := by
  apply Becomes.of_rings <| r.remove hh hm
  intro h' hh' hne a ha
  have hn : n ∈ h :: mem h := by simp [hm]
  exact ⟨Links.unlink_next <| ne_of_mem_ring r hh hh' hne ha <| (r.ring hh).prev_mem_cons hn,
    Links.unlink_prev <| ne_of_mem_ring r hh hh' hne ha <| (r.ring hh).next_mem_cons hn⟩

-- A deleted node belongs to no list, so that it can be overwritten.
theorem listDel_overwrite (hm : mem h = xs ++ n :: ys)
    (ho : ∀ a ≠ n, l'.next a = (listDel l n).next a ∧ l'.prev a = (listDel l n).prev a) :
    Becomes l H mem l' h (xs ++ ys) := by
  have c := listDel_becomes r hh hm
  have hn : n ∈ h :: mem h := by simp [hm]
  have hd : n ∉ h :: (xs ++ ys) := by
    have := hm ▸ (r.ring hh).nodup
    grind
  have hne (a : α) (ha : Node H (Function.update mem h (xs ++ ys)) a) : a ≠ n := by
    intro he
    cases (Rings.node_update hh).mp ha
    case inl ha => exact hd <| he ▸ ha
    case inr ha =>
      have ⟨h', hh', hne, ha⟩ := ha
      exact ne_of_mem_ring r hh hh' hne ha hn he
  apply Becomes.of_rings
  case r => exact c.rings.congr (fun a ha => (ho a <| hne a ha).1) fun a ha => (ho a <| hne a ha).2
  case ho =>
    intro h' hh' hne a ha
    have ⟨hn', hp'⟩ := ho a <| ne_of_mem_ring r hh hh' hne ha hn
    have ⟨hn'', hp''⟩ := c.others h' hh' hne a ha
    exact ⟨hn'.trans hn'', hp'.trans hp''⟩

end Operations

-- The loop is at the first of the nodes `ys`.
theorem listForEachSafeLoop_becomes (hb : DeletesCurrent links body del) (hh : h ∈ H) (r : Rings (links s) H mem)
    (hm : mem h = xs ++ ys) (hf : ys.length < fuel) :
    ∃ s', listForEachSafeLoop links body h fuel (ys.headD h) ((links s).next (ys.headD h)) s = some s' ∧
      s' = ys.foldl (fun s pos => body pos s) s ∧
      Becomes (links s) H mem (links s') h (xs ++ ys.filter fun pos => !del pos) := by
  induction ys generalizing xs fuel s mem
  case nil =>
    cases fuel
    case zero => cases hf
    case succ =>
      refine ⟨s, by simp [listForEachSafeLoop], rfl, ?_⟩
      rw [List.filter_nil, ← hm]
      exact .refl r
  case cons pos ys hi =>
    cases fuel
    case zero => cases hf
    case succ fuel =>
      have hne : pos ≠ h := by
        have := hm ▸ (r.ring hh).nodup
        grind
      have hn : (links s).next pos = ys.headD h := (hm ▸ r.ring hh).next_mem
      have hf : ys.length < fuel := Nat.lt_of_succ_lt_succ hf
      have hp := hb pos s
      simp only [List.headD_cons, hn, listForEachSafeLoop, if_neg hne, List.foldl_cons]
      by_cases hd : del pos
      case pos =>
        rw [if_pos hd] at hp
        have c := listDel_overwrite r hh hm hp
        have ⟨s', he, hs, c'⟩ := hi c.rings (Function.update_self ..) hf
        refine ⟨s', he, hs, ?_⟩
        rw [List.filter_cons_of_neg (by simp [hd])]
        exact c.trans c'
      case neg =>
        rw [if_neg hd] at hp
        have ⟨s', he, hs, c'⟩ := hi (hp ▸ r) (show mem h = xs ++ [pos] ++ ys by simp [hm]) hf
        refine ⟨s', he, hs, ?_⟩
        rw [List.filter_cons_of_pos (by simp [hd])]
        rw [hp] at c'
        simpa using c'

-- The operations on one of the lists of a memory do what they should to its sequence of nodes, and nothing else. A
-- traversal visits each node of the list once and in order.
theorem list_becomes (r : Rings l H mem) (hh : h ∈ H) :
    (¬Node H mem n → Becomes l H mem (listAdd l n h) h (n :: mem h)) ∧
    (¬Node H mem n → Becomes l H mem (listAddTail l n h) h (mem h ++ [n])) ∧
    (n ∈ mem h → Becomes l H mem (listDel l n) h ((mem h).erase n)) ∧
    (links s = l → DeletesCurrent links body del → (mem h).length < fuel →
      ∃ s', listForEachSafe links body h fuel s = some s' ∧ s' = (mem h).foldl (fun s pos => body pos s) s ∧
        Becomes l H mem (links s') h ((mem h).filter fun pos => !del pos)) := by
  refine ⟨listAdd_becomes r hh, listAddTail_becomes r hh, ?_, ?_⟩
  case refine_1 =>
    intro hn
    have ⟨xs, ys, hm⟩ := List.append_of_mem hn
    have hx : n ∉ xs := by
      have := hm ▸ (r.ring hh).nodup
      grind
    rw [hm, List.erase_append_right _ hx, List.erase_cons_head]
    exact listDel_becomes r hh hm
  case refine_2 =>
    intro hl hb hf
    subst hl
    have hp : (links s).next h = (mem h).headD h := (r.ring hh).next_head
    simp only [listForEachSafe, hp]
    exact listForEachSafeLoop_becomes hb hh r (List.nil_append _).symm hf

-- Two lists, the nodes of which are 1, and 11 and 12.

def twoLists : Links Nat :=
  listAddTail (listAddTail (listAdd (listInit (listInit ⟨id, id⟩ 0) 10) 1 0) 11 10) 12 10

def twoListsMem (h : Nat) : List Nat :=
  if h = 0 then [1] else if h = 10 then [11, 12] else []

theorem twoLists_rings : Rings twoLists { h | h = 0 ∨ h = 10 } twoListsMem where
  ring {h} hh := by
    cases hh
    case inl h => subst h; decide
    case inr h => subst h; decide
  apart {h h'} hh hh' hne := by
    cases hh <;> cases hh' <;> simp_all [twoListsMem]

-- The nodes are deleted, and their links are overwritten.
theorem twoLists_traversal : 
    ∃ l', listForEachSafe id (fun pos l => (listDel l pos).setNext pos 77) 10 3 twoLists = some l' ∧
    l'.Ring 10 [] ∧ l'.Ring 0 [1] := by
  have hb : DeletesCurrent id (fun pos (l : Links Nat) => (listDel l pos).setNext pos 77) fun _ => true := by
    intro pos l
    rw [if_pos rfl]
    intro a ha
    simp [ha]
  have ⟨_, _, _, ht⟩ := @list_becomes _ _ _ twoLists { h | h = 0 ∨ h = 10 } twoListsMem 10 11 id
    (fun pos l => (listDel l pos).setNext pos 77) (fun _ => true) twoLists 3 twoLists_rings (.inr rfl)
  have ⟨l', he, _, c⟩ := ht rfl hb (by decide)
  exact ⟨l', he, c.rings.ring (.inr rfl), c.rings.ring (.inl rfl)⟩

end Zgmos
