import Zgmos.Kmem.World

namespace Zgmos.Kmem.World

variable {s : World} {r : Except Fault World} {uses : List Use}

-- A request which is not fulfilled changes nothing apart from what is asked of the allocator of pages. In particular
-- a descriptor that has been taken for a new slab is back at its place, and the lock is free.
theorem run_kmemAlloc_unchanged (h : s.Start) (e : Run Step (.ok s) uses r) :
    ∃ s', r = .ok s' ∧ s'.heap.locked = false ∧ ∀ n, ∃ ret heap, (kmemAlloc n).run s'.heap = .ok (ret, heap) ∧
      (ret = 0 → heap = { s'.heap with answers := heap.answers }) := by
  have ⟨s', v, hr, k⟩ := Holds.run (t := False) h e fun h => h.elim
  refine ⟨s', hr, k.unlocked, fun n => ?_⟩
  obtain ⟨answers, ha⟩ | ⟨ret, heap, _, _, ha, _, g⟩ := k.inv.kmemAlloc_spec k.unlocked (k.list ▸ k.sizes) n
  case inl => exact ⟨0, _, ha, fun _ => rfl⟩
  case inr => exact ⟨ret, heap, ha, fun h₀ => absurd h₀ g.pos.ne'⟩

-- There are no pages for a third slab.
theorem booted_kmemAlloc_unchanged :
    ∃ s, Run Step (.ok booted) [.cacheCreate 8192, .cacheAlloc 0x80020288, .cacheAlloc 0x80020288] (.ok s) ∧
      ∃ heap, (kmemAlloc 8).run s.heap = .ok (0, heap) ∧ heap = { s.heap with answers := heap.answers } := by
  have hf : booted.found [.cacheCreate 8192, .cacheAlloc 0x80020288, .cacheAlloc 0x80020288]
    (fun s => ((kmemAlloc 8).run s.heap).toOption.map Prod.fst) = some (some 0) := by decide +kernel
  have ⟨s, e, hz⟩ := run_of_found hf
  have ⟨s', he, _, hn⟩ := run_kmemAlloc_unchanged booted_start e
  cases he
  have ⟨ret, heap, ha, hu⟩ := hn 8
  have h₀ : ret = 0 := by
    rw [ha] at hz
    exact Option.some.inj hz
  rw [h₀] at ha
  exact ⟨s, e, heap, ha, hu h₀⟩

end Zgmos.Kmem.World
