import Zgmos.Kmem.Basic

namespace Zgmos.Kmem

variable {h : Heap} {s : Slab} {w : Words} {d ret a pg order adat : Nat} {b : Nat × Nat} {f : Links Nat → Links Nat}

@[simp]
theorem ok_bind {a : α} {f : α → Except Fault β} : (Except.ok a >>= f) = f a :=
  rfl

@[simp]
theorem error_bind {e : Fault} {f : α → Except Fault β} : (Except.error e >>= f) = .error e :=
  rfl

@[simp]
theorem pure_eq_ok {a : α} : (pure a : Except Fault α) = .ok a :=
  rfl

@[simp]
theorem modifyLinks_run : (modifyLinks f).run h = .ok ((), { h with links := f h.links }) :=
  rfl

theorem slabAllocAt_run (hd : d ≠ 0) (hr : slabAlloc (h.slabs d) h.links.prev = .ok (ret, s)) :
    (slabAllocAt d).run h = .ok (ret, { h with slabs := Function.update h.slabs d s }) := by
  simp [slabAllocAt, hd, hr]

theorem slabFreeAt_run (hd : d ≠ 0) (hr : slabFree (h.slabs d) h.links.prev a = .ok (s, w)) :
    (slabFreeAt d a).run h =
      .ok ((), { h with slabs := Function.update h.slabs d s, links := { h.links with prev := w } }) := by
  simp [slabFreeAt, hd, hr]

theorem pmemFree_run (hb : h.pages.find? (·.1 = pg) = some b) :
    (pmemFree pg).run h = .ok ((), { h with pages := h.pages.erase b }) := by
  simp [pmemFree, hb]

-- A request gets a block, or the heap is as before.
theorem pmemAlloc_run (h : Heap) (order : Nat) :
    (∃ answers, (pmemAlloc order).run h = .ok (0, { h with answers })) ∨
    ∃ pg answers, h.Fresh pg order ∧
      (pmemAlloc order).run h = .ok (pg, { h with answers, pages := (pg, order) :: h.pages }) := by
  cases ha : h.answers
  case nil => exact .inl ⟨h.answers, by cases h; cases ha; rfl⟩
  case cons pg answers =>
    by_cases hf : h.Fresh pg order
    case pos => exact .inr ⟨pg, answers, hf, by simp [pmemAlloc, ha, hf]⟩
    case neg => exact .inl ⟨answers, by simp [pmemAlloc, ha, hf]⟩

end Zgmos.Kmem
