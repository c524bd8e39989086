import Zgmos.Scheduler.Basic

namespace Zgmos.Scheduler

open Node

namespace State.Sorted

variable {s : State} {t : Task} {h : Node}

theorem head_ne (hh : h ∈ [processRunnable, processSleep, processExit]) : h ≠ ubs t := by
  rintro rfl
  simp at hh

theorem disjoint {h₁ h₂ : Node} {ts₁ ts₂ : List Task} {last : Task → Option Node}
    (hh₁ : h₁ ∈ [processRunnable, processSleep, processExit])
    (hh₂ : h₂ ∈ [processRunnable, processSleep, processExit]) (hn : h₁ ≠ h₂)
    (ht₁ : ∀ t, t ∈ ts₁ ↔ last t = some h₁) (ht₂ : ∀ t, t ∈ ts₂ ↔ last t = some h₂) :
    List.Disjoint (h₁ :: ts₁.map ubs) (h₂ :: ts₂.map ubs) := by
  have := @head_ne
  intro n hn₁ hn₂
  grind

theorem mem_ring (w : s.Sorted) (ht : s.last t = some h) :
    ∃ ts₁ ts₂ : List Task, s.links.Ring h (ts₁.map ubs ++ ubs t :: ts₂.map ubs) ∧
      ∀ t', t' ∈ ts₁ ++ t :: ts₂ ↔ s.last t' = some h := by
  have ⟨ts, hr, hm⟩ := w.rings h (w.heads ht)
  have ⟨ts₁, ts₂, hts⟩ := List.append_of_mem <| (hm t).mpr ht
  subst hts
  exact ⟨ts₁, ts₂, by simpa using hr, hm⟩

theorem add (w : s.Sorted) (ht : s.last t = none)
    (hh : h ∈ [processRunnable, processSleep, processExit]) :
    (s.place (listAdd s.links (ubs t) h) t h).Sorted where
  heads {t' h'} ht' := by
    by_cases he : t' = t
    case pos => simp_all [place]
    case neg => exact w.heads (t := t') <| by simpa [place, he] using ht'
  rings h' hh' := by
    have ⟨ts, hr, hm⟩ := w.rings h hh
    have hn : ubs t ∉ h :: ts.map ubs := by
      have := head_ne (t := t) hh
      grind
    by_cases he : h' = h
    case pos =>
      subst he
      refine ⟨t :: ts, listAdd_ring hr hn, fun t' => ?_⟩
      by_cases t' = t <;> simp_all [place]
    case neg =>
      have ⟨ts', hr', hm'⟩ := w.rings h' hh'
      have hd := disjoint hh hh' (Ne.symm he) hm hm'
      have hn' : ubs t ∉ h' :: ts'.map ubs := by
        have := head_ne (t := t) hh'
        grind
      refine ⟨ts', listAdd_of_disjoint hr hr' hd hn', fun t' => ?_⟩
      by_cases t' = t <;> simp_all [place, eq_comm]

end State.Sorted

theorem State.init_sorted (l : Links Node) : (State.init l).Sorted where
  heads h := nomatch h
  rings h hh := by
    refine ⟨[], ?_, by simp [init]⟩
    have r₁ := listInit_ring l processRunnable
    have r₂ := listInit_ring (listInit l processRunnable) processSleep
    have r₃ := listInit_ring (listInit (listInit l processRunnable) processSleep) processExit
    simp only [List.mem_cons, List.not_mem_nil, or_false] at hh
    obtain rfl | rfl | rfl := hh
    case inl     => exact listInit_of_not_mem (listInit_of_not_mem r₁ (by simp)) (by simp)
    case inr.inl => exact listInit_of_not_mem r₂ (by simp)
    case inr.inr => exact r₃

end Zgmos.Scheduler
