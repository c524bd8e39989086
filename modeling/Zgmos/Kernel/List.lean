import Zgmos.Lib.Ring

-- The intrusive lists of `list.h`. A `struct list_head` is a node of a `Links` memory.

namespace Zgmos

variable [DecidableEq α]

def listInit (l : Links α) (list : α) : Links α :=
  l.setNext list list |>.setPrev list list

-- The source calls these two functions `__list_add` and `__list_del`.
def listAddBetween (l : Links α) (newlist prev next : α) : Links α :=
  l.setPrev newlist prev |>.setNext newlist next |>.setNext prev newlist |>.setPrev next newlist

def listDelBetween (l : Links α) (prev next : α) : Links α :=
  l.setPrev next prev |>.setNext prev next

def listAdd (l : Links α) (newlist head : α) : Links α :=
  listAddBetween l newlist head (l.next head)

def listAddTail (l : Links α) (newlist head : α) : Links α :=
  listAddBetween l newlist (l.prev head) head

def listDel (l : Links α) (entry : α) : Links α :=
  listDelBetween l (l.prev entry) (l.next entry)

def listIsEmpty (l : Links α) (head : α) : Bool :=
  l.next head = head

variable {l : Links α} {h n : α} {xs ys : List α}

theorem listAddBetween_eq_insert (l : Links α) (n p q : α) : listAddBetween l n p q = l.insert n p q :=
  rfl

theorem listDelBetween_eq_unlink (l : Links α) (p q : α) : listDelBetween l p q = l.unlink p q :=
  rfl

theorem listInit_ring (l : Links α) (h : α) : (listInit l h).Ring h [] where
  nodup := List.nodup_singleton h
  path  := by simp [listInit]

-- A list of which `h` is no node does not notice the initialisation of `h`.
theorem listInit_of_not_mem (r : l.Ring h xs) (hn : n ∉ h :: xs) : (listInit l n).Ring h xs := by
  refine r.congr (fun x hx => ?_) (fun x hx => ?_)
  all_goals simp [listInit, ne_of_mem_of_not_mem hx hn]

theorem listAdd_ring (r : l.Ring h xs) (hn : n ∉ h :: xs) : (listAdd l n h).Ring h (n :: xs) :=
  r.insert_front hn

theorem listAddTail_ring (r : l.Ring h xs) (hn : n ∉ h :: xs) :
    (listAddTail l n h).Ring h (xs ++ [n]) :=
  r.insert_back hn

theorem listDel_ring (r : l.Ring h (xs ++ n :: ys)) : (listDel l n).Ring h (xs ++ ys) :=
  r.remove

theorem listIsEmpty_iff (r : l.Ring h xs) : listIsEmpty l h ↔ xs = [] := by
  simp [listIsEmpty, r.next_head_eq_iff]

-- An insertion into the list with head `h` preserves every list which has no node in common with it.
theorem listAdd_of_disjoint {h' : α} {xs' : List α} (r : l.Ring h xs) (r' : l.Ring h' xs')
    (hd : List.Disjoint (h :: xs) (h' :: xs')) (hn : n ∉ h' :: xs') : (listAdd l n h).Ring h' xs' :=
  r'.insert_of_not_mem hn (hd <| by simp) (hd <| r.next_mem_cons <| by simp)

end Zgmos
