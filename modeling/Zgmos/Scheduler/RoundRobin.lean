import Zgmos.Scheduler.Basic

namespace Zgmos.Scheduler

open Node

-- An iteration of `scheduler_run` in which the other operations do not occur, with the task that it
-- dispatches.
def schedulerIterate (l : Links Node) : Except Fault (Links Node × Option Task) := do
  match ← schedulerPick l with
  | none     => return (l, none)
  | some cur => return (schedulerMark l cur, some cur)

-- The tasks which the first `n` iterations dispatch.
def schedulerIterations (l : Links Node) : Nat → Except Fault (List (Option Task))
  | 0     => return []
  | n + 1 => do
    let (l, cur) ← schedulerIterate l
    return cur :: (← schedulerIterations l n)

-- As long as there are runnable tasks every iteration dispatches one of them, and they take turns in
-- an order in which each of them occurs once.
def RoundRobin (l : Links Node) (tasks : List Task) : Prop :=
  ∃ order : List Task, order.Perm tasks ∧
    ∀ n, schedulerIterations l n = .ok ((List.range n).map fun i => order[i % order.length]?)

variable {l : Links Node} {t : Task} {ts : List Task}

theorem pick_none_iff : schedulerPick l = .ok none ↔ l.next processRunnable = processRunnable := by
  cases h : l.next processRunnable <;> simp [schedulerPick, h]

theorem pick_some_iff : schedulerPick l = .ok (some t) ↔ l.next processRunnable = ubs t := by
  cases h : l.next processRunnable <;> simp [schedulerPick, h]

-- The links of the head after `scheduler_mark`: with the task at the front the head is linked to
-- itself, otherwise the task follows it.
theorem schedulerMark_next_head :
    (schedulerMark l t).next processRunnable =
      if l.prev (ubs t) = processRunnable then processRunnable else ubs t := by
  simp only [schedulerMark, listAddTail, listDel, listAddBetween_eq_insert, Links.insert,
    listDelBetween_eq_unlink, Links.unlink, Links.setPrev_next, Links.setNext_next,
    Links.setPrev_prev, Links.setNext_prev, Function.update_apply]
  grind

-- No further task is dispatched once the head is linked to itself.
theorem schedulerIterations_idle (h : l.next processRunnable = processRunnable) (n : Nat) :
    schedulerIterations l n = .ok (List.replicate n none) := by
  induction n
  case zero => rfl
  case succ n hi =>
    have hp := pick_none_iff.mpr h
    simp [schedulerIterations, schedulerIterate, hp, hi, bind, Except.bind, pure, Except.pure,
      List.replicate_succ]

-- The first task is dispatched once, and never again any task.
theorem schedulerIterations_succ (r : l.Ring processRunnable ((t :: ts).map ubs)) (n : Nat) :
    schedulerIterations l (n + 1) = .ok (some t :: List.replicate n none) := by
  have hp : schedulerPick l = .ok (some t) := pick_some_iff.mpr r.next_head
  have hh : l.prev (ubs t) = processRunnable := r.path.2.1
  have hm : (schedulerMark l t).next processRunnable = processRunnable := by
    simp [schedulerMark_next_head, hh]
  have hi := schedulerIterations_idle hm n
  simp [schedulerIterations, schedulerIterate, hp, hi, bind, Except.bind, pure, Except.pure]

theorem not_roundRobin (r : l.Ring processRunnable (ts.map ubs)) (hn : ts ≠ []) :
    ¬RoundRobin l ts := by
  intro ⟨order, hp, hr⟩
  cases ts
  case nil => exact hn rfl
  case cons t ts =>
    have hl : 0 < order.length := by simp [hp.length_eq]
    have h := schedulerIterations_succ r 1
    rw [hr 2] at h
    simp [List.range_succ] at h
    exact absurd (Nat.mod_lt 1 hl) <| Nat.not_lt.mpr h.2

-- The list of the two tasks 0 and 1.
def twoTasks : Links Node :=
  schedulerAdd (schedulerAdd (schedulerInit ⟨id, id⟩) 1) 0

theorem twoTasks_ring : twoTasks.Ring processRunnable [ubs 0, ubs 1] where
  nodup := by decide
  path  := ⟨rfl, rfl, rfl, rfl, rfl, rfl, trivial⟩

theorem twoTasks_not_roundRobin : ¬RoundRobin twoTasks [0, 1] :=
  not_roundRobin twoTasks_ring (by decide)

-- Even a single task is dispatched only once.
theorem oneTask_iterations :
    schedulerIterations (schedulerAdd (schedulerInit ⟨id, id⟩) 0) 3 = .ok [some 0, none, none] ∧
      ¬RoundRobin (schedulerAdd (schedulerInit ⟨id, id⟩) 0) [0] := by
  refine ⟨by decide, ?_⟩
  intro ⟨order, hp, hr⟩
  have hi : schedulerIterations (schedulerAdd (schedulerInit ⟨id, id⟩) 0) 2 = .ok [some 0, none] := by
    decide
  have hl : order.length = 1 := hp.length_eq
  rw [hr 2] at hi
  simp [List.range_succ, hl] at hi

end Zgmos.Scheduler
