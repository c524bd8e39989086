import Zgmos.Scheduler.RoundRobin

namespace Zgmos.Scheduler

open Node

inductive TaskState
  | unused
  | runnable
  | running
  | zombie
  deriving DecidableEq

-- The scheduler together with the states of the tasks, which `syscall_exit` sets.
structure Kernel where
  links : Links Node
  cur   : Option Task
  state : Task → TaskState

namespace Kernel

def init (links : Links Node) : Kernel where
  links := schedulerInit links
  cur   := none
  state := fun _ => .unused

def syscallExit (k : Kernel) (task : Task) : Kernel :=
  { k with links := schedulerExit k.links task, state := Function.update k.state task .zombie }

inductive Event
  | add (task : Task)
  | dispatch
  | exit
  | yield

-- A task that has exited sees its state in `utrap_entry` and can only yield.
inductive Step : Kernel → Event → Kernel → Prop
  | add (h : k.state t = .unused) :
    Step k (.add t)
      { k with links := schedulerAdd k.links t, state := Function.update k.state t .runnable }
  | idle (hc : k.cur = none) (h : schedulerPick k.links = .ok none) :
    Step k .dispatch k
  | dispatch (hc : k.cur = none) (h : schedulerPick k.links = .ok (some t)) :
    Step k .dispatch { k with cur := some t }
  | exit (hc : k.cur = some t) (h : k.state t ≠ .zombie) :
    Step k .exit (k.syscallExit t)
  | yield (hc : k.cur = some t) :
    Step k .yield { k with links := schedulerMark k.links t, cur := none }

-- What the events so far say about the task that runs. The flag says whether a task has been added
-- since its dispatch and before its exit. It is kept while the scheduler runs after the exit.
inductive Mode
  | scheduling (exposed : Bool)
  | running (added : Bool)
  | exited (added : Bool)

def Mode.next : Mode → Event → Mode
  | scheduling _, .add _   => scheduling false
  | running _,    .add _   => running true
  | exited b,     .add _   => exited b
  | _,            .dispatch => running false
  | running b,    .exit    => exited b
  | exited b,     .yield   => scheduling b
  | running _,    .yield   => scheduling false
  | m,            _        => m

def Mode.of (es : List Event) : Mode :=
  es.foldl Mode.next (.scheduling false)

-- A task was added between the dispatch of the task and its exit, and none between its last switch
-- back and the next iteration of the scheduler.
def Exposed (es : List Event) : Prop :=
  ∃ es₁ es₂, es = es₁ ++ .dispatch :: es₂ ∧ Mode.of es₁ = .scheduling true

-- The scheduler picks no zombie in a run.
def Mortal (k : Kernel) (es : List Event) : Prop :=
  ∀ es₁ es₂ k' t, es = es₁ ++ .dispatch :: es₂ → Run Step k es₁ k' →
    schedulerPick k'.links = .ok (some t) → k'.state t ≠ .zombie

-- No task runs, and the next one is no zombie.
def Mode.Quiet : Mode → Prop
  | scheduling exposed => exposed = false
  | running _          => True
  | exited _           => False

-- What the links look like in each mode. The lists are broken in most of them, but the scheduler
-- follows only the link from the head, and `scheduler_mark` and `scheduler_exit` those of the task.
inductive Tracks (k : Kernel) : Mode → Prop
  | empty (hc : k.cur = none) (hm : m.Quiet)
    (hh : k.links.next processRunnable = processRunnable) : Tracks k m
  | front (hc : k.cur = none) (hm : m.Quiet) (hs : k.state t = .runnable)
    (hh : k.links.next processRunnable = ubs t) (hp : k.links.prev (ubs t) = processRunnable)
    (hn : k.links.next (ubs t) ≠ ubs t) : Tracks k m
  | exposed (hc : k.cur = none) (hs : k.state t = .zombie)
    (hh : k.links.next processRunnable = ubs t) : Tracks k (.scheduling true)
  | running (hc : k.cur = some t) (hs : k.state t = .runnable)
    (hh : k.links.next processRunnable = ubs t) (hp : k.links.prev (ubs t) = processRunnable)
    (hn : k.links.next (ubs t) ≠ ubs t) : Tracks k (.running false)
  | pushed (hc : k.cur = some t) (hs : k.state t = .runnable)
    (hh : k.links.next processRunnable ≠ ubs t) (hp : k.links.prev (ubs t) ≠ processRunnable)
    (hn : k.links.next (ubs t) ≠ ubs t) (hp' : k.links.prev (ubs t) ≠ ubs t) :
    Tracks k (.running true)
  | exited (hc : k.cur = some t) (hs : k.state t = .zombie)
    (hh : k.links.next processRunnable ≠ ubs t)
    (hp : k.links.prev (ubs t) = processRunnable ↔ b = false) : Tracks k (.exited b)

theorem Step.unique (k : Kernel) (ev : Event) (k₁ k₂ : Kernel) (e₁ : Step k ev k₁)
    (e₂ : Step k ev k₂) : k₁ = k₂ := by
  cases e₁ <;> cases e₂ <;> simp_all

variable {k k' : Kernel} {l : Links Node} {m : Mode} {t u : Task} {n : Node}

-- The links after the operations.
theorem add_next : (schedulerAdd l u).next n =
    if n = processRunnable then ubs u else if n = ubs u then l.next processRunnable else l.next n := by
  simp [schedulerAdd, listAdd, listAddBetween, Function.update_apply]

theorem add_prev : (schedulerAdd l u).prev n =
    if n = l.next processRunnable then ubs u else if n = ubs u then processRunnable else l.prev n := by
  simp [schedulerAdd, listAdd, listAddBetween, Function.update_apply]

theorem exit_next_head : (schedulerExit l t).next processRunnable =
    if l.prev (ubs t) = processRunnable then l.next (ubs t) else l.next processRunnable := by
  simp [schedulerExit, listAdd, listDel, listAddBetween, listDelBetween, Function.update_apply]
  grind

theorem exit_prev (hn : l.next (ubs t) ≠ ubs t) :
    (schedulerExit l t).prev (ubs t) = l.prev (ubs t) := by
  simp [schedulerExit, listAdd, listDel, listAddBetween, listDelBetween, Function.update_apply]
  grind

theorem mark_prev : (schedulerMark l t).prev (ubs t) = processRunnable := by
  simp [schedulerMark, listAddTail, listDel, listAddBetween, listDelBetween, Function.update_apply]

theorem mark_next (hp : l.prev (ubs t) ≠ ubs t) :
    (schedulerMark l t).next (ubs t) = l.next (ubs t) := by
  simp [schedulerMark, listAddTail, listDel, listAddBetween, listDelBetween, Function.update_apply]
  grind

@[simp]
theorem Mode.next_dispatch : m.next .dispatch = .running false := by
  cases m <;> rfl

theorem Mode.Quiet.add (h : m.Quiet) : (m.next (.add t)).Quiet := by
  cases m <;> simp_all [Quiet, Mode.next]

-- A task which is new to the scheduler goes to the front when no task runs.
theorem Tracks.add_front (hc : k.cur = none) (hm : m.Quiet)
    (hh : k.links.next processRunnable ≠ ubs u) :
    Tracks { k with links := schedulerAdd k.links u, state := Function.update k.state u .runnable }
      m := by
  apply Tracks.front (t := u)
  case hc => exact hc
  case hm => exact hm
  case hs => simp
  case hh => simp [add_next]
  case hp => simp [add_prev, hh.symm]
  case hn => simpa [add_next] using hh

theorem Tracks.add (w : Tracks k m) (hu : k.state u = .unused) :
    Tracks { k with links := schedulerAdd k.links u, state := Function.update k.state u .runnable }
      (m.next (.add u)) := by
  have hne {t s} (hs : k.state t = s) (h : s ≠ .unused) : u ≠ t := fun he => h (hs ▸ he ▸ hu)
  cases w
  case empty hc hh hm => exact add_front hc hm.add (by simp [hh])
  case front t hc hs hh _ _ hm =>
    have := (hne hs nofun).symm
    exact add_front hc hm.add (by simp [hh, this])
  case exposed t hc hs hh =>
    have := (hne hs nofun).symm
    exact add_front hc rfl (by simp [hh, this])
  case running t hc hs hh hp hn =>
    have h₁ := hne hs nofun
    have h₂ := h₁.symm
    apply Tracks.pushed (t := t)
    all_goals simp_all [add_next, add_prev]
  case pushed t hc hs hh hp hn hp' =>
    have h₁ := hne hs nofun
    have h₂ := h₁.symm
    apply Tracks.pushed (t := t)
    all_goals simp_all [add_next, add_prev, hh.symm]
  case exited t b hc hs hh hp =>
    have h₁ := hne hs nofun
    have h₂ := h₁.symm
    apply Tracks.exited (t := t)
    all_goals simp_all [add_next, add_prev, hh.symm]

theorem Tracks.exit (w : Tracks k m) (hc : k.cur = some t) (hs : k.state t ≠ .zombie) :
    Tracks (k.syscallExit t) (m.next .exit) := by
  cases w
  case running t' hc' _ hh hp hn =>
    cases hc.symm.trans hc'
    apply Tracks.exited (t := t)
    all_goals simp_all [syscallExit, exit_next_head, exit_prev]
  case pushed t' hc' _ hh hp hn hp' =>
    cases hc.symm.trans hc'
    apply Tracks.exited (t := t)
    all_goals simp_all [syscallExit, exit_next_head, exit_prev]
  all_goals simp_all

theorem Tracks.yield (w : Tracks k m) (hc : k.cur = some t) :
    Tracks { k with links := schedulerMark k.links t, cur := none } (m.next .yield) := by
  cases w
  case running t' hc' hs hh hp hn =>
    cases hc.symm.trans hc'
    apply Tracks.empty
    all_goals simp_all [schedulerMark_next_head, Mode.next, Mode.Quiet]
  case pushed t' hc' hs hh hp hn hp' =>
    cases hc.symm.trans hc'
    apply Tracks.front (t := t)
    all_goals simp_all [schedulerMark_next_head, mark_prev, mark_next, Mode.next, Mode.Quiet]
  case exited t' b hc' hs hh hp =>
    cases hc.symm.trans hc'
    cases b
    case false =>
      apply Tracks.empty
      all_goals simp_all [schedulerMark_next_head, Mode.next, Mode.Quiet]
    case true =>
      apply Tracks.exposed (t := t)
      all_goals simp_all [schedulerMark_next_head]
  all_goals simp_all

theorem Tracks.dispatch (w : Tracks k m) (hp : schedulerPick k.links = .ok (some t))
    (hc : k.cur = none) (hs : k.state t ≠ .zombie) :
    Tracks { k with cur := some t } (m.next .dispatch) := by
  have hp := pick_some_iff.mp hp
  cases w
  case front t' _ _ hh _ _ _ =>
    cases hh.symm.trans hp
    rw [Mode.next_dispatch]
    apply Tracks.running (t := t)
    all_goals simp_all
  case exposed t' _ hs' hh =>
    cases hh.symm.trans hp
    exact absurd hs' hs
  all_goals simp_all

-- The scheduler picks a zombie exactly in the exposed mode.
theorem Tracks.pick_zombie_iff (w : Tracks k m) (hp : schedulerPick k.links = .ok (some t))
    (hc : k.cur = none) : k.state t = .zombie ↔ ∃ b, m = .scheduling b ∧ b = true := by
  have hp := pick_some_iff.mp hp
  cases w
  case front t' _ hs hh _ _ hm =>
    cases hh.symm.trans hp
    cases m <;> simp_all [Mode.Quiet]
  all_goals simp_all

theorem Tracks.step {ev : Event} (w : Tracks k m) (e : Step k ev k') (h : m = .scheduling true → ev ≠ .dispatch) :
    Tracks k' (m.next ev) := by
  cases e
  case add t hu       => exact w.add hu
  case exit t hc hs   => exact w.exit hc hs
  case yield t hc     => exact w.yield hc
  case dispatch t hc hp =>
    refine w.dispatch hp hc fun hz => ?_
    have ⟨b, hm, hb⟩ := (w.pick_zombie_iff hp hc).mp hz
    exact h (hb ▸ hm) rfl
  case idle hc hp     => exact .empty hc (by simp [Mode.Quiet]) (pick_none_iff.mp hp)

theorem Mode.of_append (es₁ es₂ : List Event) : Mode.of (es₁ ++ es₂) = es₂.foldl Mode.next (.of es₁) :=
  List.foldl_append

theorem Tracks.init (l : Links Node) : Tracks (init l) (.of []) :=
  .empty rfl rfl <| by simp [Kernel.init, schedulerInit, listInit]

-- Until the scheduler picks a zombie the mode describes the links.
theorem Tracks.run {es : List Event} (w : Tracks k m) (r : Run Step k es k')
    (h : ∀ es₁ es₂, es = es₁ ++ .dispatch :: es₂ → es₁.foldl Mode.next m ≠ .scheduling true) :
    Tracks k' (es.foldl Mode.next m) := by
  induction r generalizing m
  case nil => exact w
  case cons ev _ es _ e _ hi =>
    apply hi
    case w => exact w.step e fun hm hev => h [] es (by simp [hev]) hm
    case h => exact fun es₁ es₂ he => h (ev :: es₁) es₂ (by simp [he])

theorem Tracks.pick_exposed (w : Tracks k (.scheduling true)) :
    ∃ t, schedulerPick k.links = .ok (some t) ∧ k.state t = .zombie := by
  cases w
  case exposed t _ hs hh => exact ⟨t, pick_some_iff.mpr hh, hs⟩
  all_goals simp_all [Mode.Quiet]

theorem Mortal.mode_ne {es es₁ es₂ : List Event} (h : Mortal (Kernel.init l) es)
    (r : Run Step (Kernel.init l) es k) (he : es = es₁ ++ .dispatch :: es₂) :
    Mode.of es₁ ≠ .scheduling true := by
  -- The mode describes the links at the first place where it is exposed.
  induction hn : es₁.length using Nat.strong_induction_on generalizing es₁ es₂
  case h n hi =>
    intro hm
    subst he
    have ⟨k₁, r₁, _⟩ := r.split
    have w : Tracks k₁ (.of es₁) := by
      apply (Tracks.init l).run r₁
      intro es₃ es₄ he
      subst he
      have he : es₃ ++ .dispatch :: es₄ ++ .dispatch :: es₂ = es₃ ++ .dispatch :: (es₄ ++ .dispatch :: es₂) := by
        simp
      exact hi es₃.length (by simp [← hn]) he rfl
    have ⟨t, hp, hz⟩ := (hm ▸ w).pick_exposed
    exact h es₁ es₂ k₁ t rfl r₁ hp hz

-- No task is dispatched after its exit if and only if no exited task is ever left at the front.
theorem mortal_iff_not_exposed {es : List Event} (r : Run Step (Kernel.init l) es k) :
    Mortal (Kernel.init l) es ↔ ¬Exposed es := by
  constructor
  case mp =>
    intro h ⟨es₁, es₂, he, hm⟩
    exact h.mode_ne r he hm
  case mpr =>
    intro h es₁ es₂ k₁ t he r₁ hp hz
    subst he
    have ⟨k₂, r₂, r₃⟩ := r.split
    have hk : k₂ = k₁ := r₂.unique Step.unique r₁
    subst hk
    have hc : k₂.cur = none := by
      cases r₃
      case cons e _ => cases e <;> assumption
    have w : Tracks k₂ (.of es₁) := by
      apply (Tracks.init l).run r₂
      intro es₃ es₄ he hm
      exact h ⟨es₃, es₄ ++ .dispatch :: es₂, by simp [he], hm⟩
    have ⟨b, hm, hb⟩ := (w.pick_zombie_iff hp hc).mp hz
    exact h ⟨es₁, es₂, rfl, hb ▸ hm⟩

theorem oneTask_mortal : Mortal (Kernel.init ⟨id, id⟩) [.add 0, .dispatch, .exit, .yield] := by
  have r : Run Step (Kernel.init ⟨id, id⟩) [.add 0, .dispatch, .exit, .yield] _ :=
    .cons (.add rfl) <| .cons (.dispatch rfl rfl) <| .cons (.exit rfl (by decide)) <|
      .single (.yield rfl)
  apply (mortal_iff_not_exposed r).mpr
  intro ⟨es₁, es₂, he, hm⟩
  match es₁ with
  | []          => simp at he
  | [_]         => simp at he; simp [← he.1, Mode.of, Mode.next] at hm
  | _ :: _ :: _ => simp [List.cons_eq_append_iff] at he

-- The task 0 starts the task 1, exits and switches back: it is dispatched again.
theorem zombie_dispatched : ∃ k, Run Step (Kernel.init ⟨id, id⟩)
    [.add 0, .dispatch, .add 1, .exit, .yield, .dispatch] k ∧
      k.cur = some 0 ∧ k.state 0 = .zombie := by
  refine ⟨_, .cons (.add rfl) <| .cons (.dispatch rfl rfl) <| .cons (.add rfl) <|
    .cons (.exit rfl ?_) <| .cons (.yield rfl) <|
      .single (.dispatch (t := 0) rfl ?_), ?_, ?_⟩
  all_goals decide

end Zgmos.Scheduler.Kernel
