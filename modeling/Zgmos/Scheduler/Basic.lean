import Zgmos.Kernel.List
import Zgmos.Kernel.Fault
import Zgmos.Lib.Run

namespace Zgmos.Scheduler

-- A task is identified with the address of its `struct task_struct`.
abbrev Task := Nat

-- The three list heads and the `ubs` members of the tasks.
inductive Node
  | processRunnable
  | processSleep
  | processExit
  | ubs (task : Task)
  deriving DecidableEq, Repr

open Node

def schedulerInit (l : Links Node) : Links Node :=
  listInit (listInit (listInit l processRunnable) processSleep) processExit

def schedulerAdd (l : Links Node) (task : Task) : Links Node :=
  listAdd l (ubs task) processRunnable

-- In the following four functions the arguments of `list_add` and `list_add_tail` are in the order
-- of the source, which is not the order in which these two take them.
def schedulerRunnable (l : Links Node) (task : Task) : Links Node :=
  listAdd (listDel l <| ubs task) processRunnable (ubs task)

def schedulerSleep (l : Links Node) (task : Task) : Links Node :=
  listAdd (listDel l <| ubs task) processSleep (ubs task)

def schedulerExit (l : Links Node) (task : Task) : Links Node :=
  listAdd (listDel l <| ubs task) processExit (ubs task)

def schedulerMark (l : Links Node) (task : Task) : Links Node :=
  listAddTail (listDel l <| ubs task) processRunnable (ubs task)

def schedulerRemove (l : Links Node) (task : Task) : Links Node :=
  listDel l (ubs task)

-- The first half of an iteration of `scheduler_run`: the task to switch to, or `none` if the
-- iteration ends with `continue`.
def schedulerPick (l : Links Node) : Except Fault (Option Task) :=
  match l.next processRunnable with
  | processRunnable => .ok none
  | ubs task        => .ok (some task)
  | _               => .error .wildPointer

-- The scheduler with its current task, i.e. the local variable `cur` of `scheduler_run`, which is
-- `none` while the scheduler itself is running. The member `last` is not part of the kernel: it
-- remembers the list which the last operation on each task names.
structure State where
  links : Links Node
  cur   : Option Task
  last  : Task → Option Node

namespace State

def init (links : Links Node) : State where
  links := schedulerInit links
  cur   := none
  last  := fun _ => none

def place (s : State) (links : Links Node) (task : Task) (head : Node) : State :=
  { s with links, last := Function.update s.last task head }

end State

inductive Op
  | add (task : Task)
  | dispatch
  | mark
  | runnable (task : Task)
  | sleep (task : Task)
  | exit (task : Task)

-- The operations in whose implementation the arguments of `list_add` or `list_add_tail` are swapped.
def Op.Swapped : Op → Prop
  | mark | runnable _ | sleep _ | exit _ => True
  | add _ | dispatch                     => False

-- Only a new task is added and only an enqueued task is moved.
inductive Step : State → Op → State → Prop
  | add (h : s.last t = none) :
    Step s (.add t) (s.place (schedulerAdd s.links t) t processRunnable)
  | idle (hc : s.cur = none) (h : schedulerPick s.links = .ok none) :
    Step s .dispatch s
  | dispatch (hc : s.cur = none) (h : schedulerPick s.links = .ok (some t)) :
    Step s .dispatch { s with cur := some t }
  | mark (hc : s.cur = some t) :
    Step s .mark { s.place (schedulerMark s.links t) t processRunnable with cur := none }
  | runnable (h : s.last t ≠ none) :
    Step s (.runnable t) (s.place (schedulerRunnable s.links t) t processRunnable)
  | sleep (h : s.last t ≠ none) :
    Step s (.sleep t) (s.place (schedulerSleep s.links t) t processSleep)
  | exit (h : s.last t ≠ none) :
    Step s (.exit t) (s.place (schedulerExit s.links t) t processExit)

-- Every list is well-formed and holds exactly those tasks whose last operation names it.
structure State.Sorted (s : State) : Prop where
  heads : s.last t = some h → h ∈ [processRunnable, processSleep, processExit]
  rings : ∀ h ∈ [processRunnable, processSleep, processExit],
    ∃ ts : List Task, s.links.Ring h (ts.map ubs) ∧ ∀ t, t ∈ ts ↔ s.last t = some h

end Zgmos.Scheduler
