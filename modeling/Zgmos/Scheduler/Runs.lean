import Zgmos.Scheduler.Queues

namespace Zgmos.Scheduler

open Node

namespace State

-- The invariant of all runs without swapped arguments: the task that runs is an enqueued task.
structure Good (s : State) : Prop extends s.Sorted where
  cur : s.cur = some t → s.last t ≠ none

variable {s s' : State} {t : Task} {h : Node} {op : Op}

theorem init_good (l : Links Node) : (init l).Good where
  toSorted := init_sorted l
  cur h    := nomatch h

theorem Sorted.pick_last (w : s.Sorted) (h : schedulerPick s.links = .ok (some t)) :
    s.last t = some processRunnable := by
  have ⟨ts, hr, hm⟩ := w.rings processRunnable (by simp)
  refine (hm t).mp ?_
  have hn : s.links.next processRunnable = ubs t := by
    unfold schedulerPick at h
    split at h <;> simp_all
  rw [hr.next_head] at hn
  cases ts <;> simp_all

theorem Good.step (g : s.Good) (e : Step s op s') (ho : ¬op.Swapped) : s'.Good := by
  cases e
  case add t ht =>
    refine { g.add ht (by simp) with cur := fun {t'} hc => ?_ }
    have := g.cur (t := t') hc
    by_cases t' = t <;> simp_all [place]
  case idle => exact g
  case dispatch t hc hp => exact { g with cur := fun h => by cases h; simp [g.pick_last hp] }
  all_goals exact absurd trivial ho

-- The node which `list_add` with swapped arguments should have linked keeps its predecessor, but this
-- node now leads to the successor.
theorem next_prev_listAdd (l : Links Node) (hh : h ≠ ubs t) (hp : l.prev (ubs t) ≠ ubs t)
    (hn : l.next (ubs t) ≠ ubs t) :
    let l' := listAdd (listDel l (ubs t)) h (ubs t)
    l'.next (l'.prev (ubs t)) ≠ ubs t := by
  simp only [listAdd, listDel, listAddBetween_eq_insert, listDelBetween_eq_unlink, Links.insert,
    Links.unlink, Links.setPrev_next, Links.setNext_next, Links.setPrev_prev, Links.setNext_prev,
    Function.update_apply]
  grind

-- With `list_add_tail` it keeps its successor, from which nothing leads back.
theorem prev_next_listAddTail (l : Links Node) (hh : h ≠ ubs t) (hp : l.prev (ubs t) ≠ ubs t)
    (hn : l.next (ubs t) ≠ ubs t) :
    let l' := listAddTail (listDel l (ubs t)) h (ubs t)
    l'.prev (l'.next (ubs t)) ≠ ubs t := by
  simp only [listAddTail, listDel, listAddBetween_eq_insert, listDelBetween_eq_unlink, Links.insert,
    Links.unlink, Links.setPrev_next, Links.setNext_next, Links.setPrev_prev, Links.setNext_prev,
    Function.update_apply]
  grind

theorem Sorted.not_swapped (w : s.Sorted) (ht : s.last t ≠ none)
    (hh : h ∈ [processRunnable, processSleep, processExit]) :
    ¬(s.place (listAdd (listDel s.links (ubs t)) h (ubs t)) t h).Sorted := by
  intro w'
  have ⟨_, hq⟩ := Option.ne_none_iff_exists'.mp ht
  have ⟨_, _, hr, _⟩ := w.mem_ring hq
  have ⟨_, _, hr', _⟩ := w'.mem_ring (t := t) (h := h) (by simp [place])
  have hp := hr.prev_ne (a := ubs t) (by simp)
  have hn := hr.next_ne (a := ubs t) (by simp)
  apply next_prev_listAdd s.links (head_ne hh) hp hn
  exact hr'.next_prev (by simp)

theorem Sorted.not_mark (w : s.Sorted) (ht : s.last t ≠ none) :
    ¬(s.place (schedulerMark s.links t) t processRunnable).Sorted := by
  intro w'
  have ⟨_, hq⟩ := Option.ne_none_iff_exists'.mp ht
  have ⟨_, _, hr, _⟩ := w.mem_ring hq
  have ⟨_, _, hr', _⟩ := w'.mem_ring (t := t) (h := processRunnable) (by simp [place])
  have hp := hr.prev_ne (a := ubs t) (by simp)
  have hn := hr.next_ne (a := ubs t) (by simp)
  apply prev_next_listAddTail s.links (h := processRunnable) (by simp) hp hn
  exact hr'.prev_next (by simp)

theorem Good.step_swapped (g : s.Good) (e : Step s op s') (ho : op.Swapped) : ¬s'.Sorted := by
  cases e
  case mark hc     => exact fun w => g.not_mark (g.cur hc) ⟨w.heads, w.rings⟩
  case runnable ht => exact g.not_swapped ht (by simp)
  case sleep ht    => exact g.not_swapped ht (by simp)
  case exit ht     => exact g.not_swapped ht (by simp)
  all_goals exact ho.elim

theorem Good.run {ops : List Op} (g : s.Good) (r : Run Step s ops s') (ho : ∀ op ∈ ops, ¬op.Swapped) :
    s'.Good := by
  induction r
  case nil => exact g
  case cons e _ hi =>
    exact hi (g.step e <| ho _ (by simp)) fun op h => ho op (by simp [h])

end State

theorem exists_first_swapped {ops : List Op} (h : ¬∀ op ∈ ops, ¬op.Swapped) :
    ∃ ops₁ op ops₂, ops = ops₁ ++ op :: ops₂ ∧ (∀ op ∈ ops₁, ¬op.Swapped) ∧ op.Swapped := by
  induction ops
  case nil => simp at h
  case cons op ops hi =>
    by_cases ho : op.Swapped
    case pos => exact ⟨[], op, ops, rfl, by simp, ho⟩
    case neg =>
      have ⟨ops₁, op', ops₂, he, hg, ho'⟩ := hi fun hc => h (by simp_all)
      exact ⟨op :: ops₁, op', ops₂, by simp [he], by simp_all, ho'⟩

open State in
-- The lists lose no task in a run if and only if the run contains none of the four operations which
-- swap the arguments of `list_add` and `list_add_tail`.
theorem sorted_iff_not_swapped {ops : List Op} (r : Run Step (.init l) ops s) :
    (∀ ops₁ ops₂ s', ops = ops₁ ++ ops₂ → Run Step (.init l) ops₁ s' → s'.Sorted) ↔
      ∀ op ∈ ops, ¬op.Swapped := by
  constructor
  case mpr =>
    rintro ho ops₁ ops₂ s' rfl r'
    exact (init_good l).run r' (fun op h => ho op (by simp [h])) |>.toSorted
  case mp =>
    intro h
    by_contra hc
    -- The lists are in order until the first operation with swapped arguments, but not after it.
    have ⟨ops₁, op, ops₂, he, hg, ho⟩ := exists_first_swapped hc
    subst he
    have ⟨s₁, r₁, r₂⟩ := r.split
    cases r₂
    case cons s₂ e _ =>
      refine ((init_good l).run r₁ hg).step_swapped e ho ?_
      exact h (ops₁ ++ [op]) ops₂ s₂ (by simp) (r₁.append <| .single e)

theorem sorted_dispatch : (∃ s, Run Step (.init ⟨id, id⟩) [.add 0, .add 1, .dispatch] s) ∧
    ∀ ops₁ ops₂ s', [.add 0, .add 1, .dispatch] = ops₁ ++ ops₂ →
      Run Step (.init ⟨id, id⟩) ops₁ s' → s'.Sorted :=
  have r : Run Step (.init ⟨id, id⟩) [.add 0, .add 1, .dispatch] _ :=
    .cons (.add rfl) <| .cons (.add rfl) <| .single (.dispatch rfl rfl)
  ⟨⟨_, r⟩, (sorted_iff_not_swapped r).mpr (by simp [Op.Swapped])⟩

-- A task that is put to sleep is lost.
theorem sleep_not_sorted : ∃ s, Run Step (.init ⟨id, id⟩) [.add 0, .sleep 0] s ∧
    s.last 0 = some processSleep ∧ s.links.next processSleep = processRunnable ∧ ¬s.Sorted := by
  let s := State.init ⟨id, id⟩
  have e₁ : Step s (.add 0) (s.place (schedulerAdd s.links 0) 0 processRunnable) := .add rfl
  have e₂ : Step (s.place (schedulerAdd s.links 0) 0 processRunnable) (.sleep 0) _ := .sleep (by decide)
  exact ⟨_, .cons e₁ <| .single e₂, by decide, by decide,
    (State.init_good _ |>.step e₁ id).step_swapped e₂ trivial⟩

end Zgmos.Scheduler
