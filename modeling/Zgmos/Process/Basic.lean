import Zgmos.Pte.Destory

-- The pages of a task.

namespace Zgmos.Process

open Pte

-- The constants of `process.h`, `pg.h` and `elf.h`.

def procVaTrampoline : Word := 0xffffe000
def procVaTrapframe  : Word := 0xffff9000
def procVaUstack     : Word := 0xffff7000

def pteVSet : Word := 0b00001
def pteRSet : Word := 0b00010
def pteWSet : Word := 0b00100
def pteXSet : Word := 0b01000
def pteUSet : Word := 0b10000

def pfX : BitVec 32 := 0b001
def pfW : BitVec 32 := 0b010
def pfR : BitVec 32 := 0b100

def taskAuxMapFlags (segFlags : BitVec 32) : Word :=
  let flags := if segFlags &&& pfX ≠ 0 then 0 ||| pteXSet else 0
  let flags := if segFlags &&& pfR ≠ 0 then flags ||| pteRSet else flags
  let flags := if segFlags &&& pfW ≠ 0 then flags ||| pteWSet else flags
  if flags = 0 then 0 else flags ||| (pteVSet ||| pteUSet)

-- What `task_create` does with the page table. The pages of the trapframe and of the stack are allocated in between.
def taskCreateTable (pmem : Nat → Word) (uvecStart tfp ustackPa : Word) : TableM Word := do
  let userPte ← createTable pmem
  if userPte = 0 then
    return 0
  else
    mapPage pmem userPte procVaTrampoline uvecStart (pteXSet ||| pteRSet ||| pteVSet) .page4K
    mapPage pmem userPte procVaTrapframe tfp (pteRSet ||| pteWSet ||| pteVSet) .page4K
    mapPage pmem userPte procVaUstack ustackPa (pteRSet ||| pteWSet ||| pteVSet ||| pteUSet) .page4K
    return userPte

-- A `struct task_page` and its address.
structure TaskPage where
  addr : Word
  pa   : Word
  va   : Word
  deriving DecidableEq

-- The members of `struct task_struct` for the pages. The list `pages` has its nodes in the structures.
structure Task where
  userPte         : Word
  pages           : List TaskPage
  maxWritablePage : Word

-- The task together with the memory for page tables, the pages of `pmem_alloc` and the objects of `kmalloc`
-- which have not been freed.
structure TaskState where
  task    : Task
  mem     : Mem
  live    : List Word
  objects : List Word

abbrev TaskM := ExceptT Fault (StateM TaskState)

-- Only what is allocated is freed.

def kfree (addr : Word) : TaskM Unit := do
  let s ← get
  if s.objects.contains addr then
    set { s with objects := s.objects.erase addr }
  else
    throw .wildPointer

def pmemFree (pa : Word) : TaskM Unit := do
  let s ← get
  if s.live.contains pa then
    set { s with live := s.live.erase pa }
  else
    throw .wildPointer

-- The calls of `pte_map` and `pte_unmap` for the table of the task. `pmem n` is the result of the call number `n` of
-- `pmem_alloc` in `pte_map`.

def mapUser (pmem : Nat → Word) (va pa flags : Word) : TaskM Unit := fun s =>
  let r := (pteMap pmem s.task.userPte va pa flags .page4K).run s.mem
  let ts := (List.range <| pteMapAllocs s.mem s.task.userPte va .page4K).map pmem
  (r.1, { s with mem := r.2, live := ts ++ s.live })

def unmapUser (va : Word) : TaskM Unit := fun s =>
  let r := (pteUnmap s.task.userPte va).run s.mem
  (r.1, { s with mem := r.2 })

-- `kmalloc` and `pmem n` are the results of the calls of `kmalloc` and `pmem_alloc`. The result `none` is `NULL`.
def taskAddPage (kmalloc : Word) (pmem : Nat → Word) (va flags : Word) : TaskM (Option TaskPage) :=
  if kmalloc = 0 then
    return none
  else do
    modify fun s => { s with objects := kmalloc :: s.objects }
    let pa := pmem 0
    if pa = 0 then
      kfree kmalloc
      return none
    else
      modify fun s => { s with live := pa :: s.live }
      let page : TaskPage := { addr := kmalloc, pa, va }
      if flags &&& pteWSet ≠ 0 then
        modify fun s =>
          if s.task.maxWritablePage < va then { s with task := { s.task with maxWritablePage := va } } else s
      mapUser (fun n => pmem (n + 1)) va pa flags
      modify fun s => { s with task := { s.task with pages := page :: s.task.pages } }
      return some page

-- The loop of `task_remove_page` ends at the first page with the address.
def taskRemovePage (va : Word) : TaskM Bool := do
  match (← get).task.pages.find? fun pg => pg.va = va with
  | none    => return false
  | some pg =>
    modify fun s => { s with task := { s.task with pages := s.task.pages.erase pg } }
    unmapUser va
    pmemFree pg.pa
    kfree pg.addr
    return true

-- The body of the loop in `task_remove_all_page`.
def removePage (pg : TaskPage) : TaskM Unit := do
  modify fun s => { s with task := { s.task with pages := s.task.pages.erase pg } }
  pmemFree pg.pa
  kfree pg.addr

def taskRemoveAllPage : TaskM Unit := do
  (← get).task.pages.forM removePage

variable {kmalloc va flags : Word} {pmem : Nat → Word} {s s' : TaskState}

-- The maximum is raised for a page that can be written.
def raise (flags va maxWritablePage : Word) : Word :=
  if flags &&& pteWSet ≠ 0 ∧ maxWritablePage < va then va else maxWritablePage

theorem modify_run (f : TaskState → TaskState) : (modify f : TaskM PUnit).run s = (.ok ⟨⟩, f s) :=
  rfl

theorem get_run : (get : TaskM TaskState).run s = (.ok s, s) :=
  rfl

theorem kfree_run {addr : Word} (h : addr ∈ s.objects) :
    (kfree addr).run s = (.ok (), { s with objects := s.objects.erase addr }) := by
  rw [kfree, ExceptT.run_bind_ok get_run, if_pos <| List.contains_iff_mem.mpr h]
  rfl

theorem pmemFree_run {pa : Word} (h : pa ∈ s.live) :
    (pmemFree pa).run s = (.ok (), { s with live := s.live.erase pa }) := by
  rw [pmemFree, ExceptT.run_bind_ok get_run, if_pos <| List.contains_iff_mem.mpr h]
  rfl

theorem removePage_run {pg : TaskPage} (hp : pg.pa ∈ s.live) (ha : pg.addr ∈ s.objects) :
    (removePage pg).run s = (.ok (), {
      s with
      task    := { s.task with pages := s.task.pages.erase pg }
      live    := s.live.erase pg.pa
      objects := s.objects.erase pg.addr
    }) := by
  rw [removePage, ExceptT.run_bind_ok <| modify_run _]
  refine Eq.trans (ExceptT.run_bind_ok <| pmemFree_run ?_) <| kfree_run ?_
  case refine_1 => exact hp
  case refine_2 => exact ha

theorem mapUser_run {pa : Word} {mem' : Mem} {r : Except Fault Unit}
    (h : (pteMap pmem s.task.userPte va pa flags .page4K).run s.mem = (r, mem')) :
    (mapUser pmem va pa flags).run s = (r, {
      s with
      mem  := mem'
      live := (List.range <| pteMapAllocs s.mem s.task.userPte va .page4K).map pmem ++ s.live
    }) := by
  have hr : (mapUser pmem va pa flags).run s =
      let r := (pteMap pmem s.task.userPte va pa flags .page4K).run s.mem
      let ts := (List.range <| pteMapAllocs s.mem s.task.userPte va .page4K).map pmem
      (r.1, { s with mem := r.2, live := ts ++ s.live }) := rfl
  rw [hr, h]

theorem unmapUser_run {mem' : Mem} (h : (pteUnmap s.task.userPte va).run s.mem = (.ok (), mem')) :
    (unmapUser va).run s = (.ok (), { s with mem := mem' }) := by
  have hr : (unmapUser va).run s =
      let r := (pteUnmap s.task.userPte va).run s.mem
      (r.1, { s with mem := r.2 }) := rfl
  rw [hr, h]

theorem taskAddPage_null (h : kmalloc = 0 ∨ pmem 0 = 0) : (taskAddPage kmalloc pmem va flags).run s = (.ok none, s) := by
  unfold taskAddPage
  by_cases hk : kmalloc = 0
  case pos =>
    rw [if_pos hk]
    rfl
  case neg =>
    have hm : kmalloc ∈ kmalloc :: s.objects := List.mem_cons_self
    rw [if_neg hk, ExceptT.run_bind_ok <| modify_run _]
    simp only [if_pos <| h.resolve_left hk]
    rw [ExceptT.run_bind_ok <| kfree_run hm, List.erase_cons_head]
    rfl

-- The page is mapped when it has been allocated.
theorem taskAddPage_eq (hk : kmalloc ≠ 0) (hp : pmem 0 ≠ 0) :
    (taskAddPage kmalloc pmem va flags).run s = (do
      mapUser (fun n => pmem (n + 1)) va (pmem 0) flags
      modify fun s =>
        { s with task := { s.task with pages := { addr := kmalloc, pa := pmem 0, va } :: s.task.pages } }
      return some { addr := kmalloc, pa := pmem 0, va } : TaskM (Option TaskPage)).run {
        task    := { s.task with maxWritablePage := raise flags va s.task.maxWritablePage }
        mem     := s.mem
        live    := pmem 0 :: s.live
        objects := kmalloc :: s.objects
      } := by
  unfold taskAddPage
  rw [if_neg hk, ExceptT.run_bind_ok <| modify_run _]
  simp only [if_neg hp]
  rw [ExceptT.run_bind_ok <| modify_run _]
  by_cases hw : flags &&& pteWSet ≠ 0
  case pos =>
    simp only [if_pos hw]
    rw [ExceptT.run_bind_ok <| modify_run _]
    by_cases hm : s.task.maxWritablePage < va
    case pos => simp only [if_pos hm, raise, if_pos (And.intro hw hm)]
    case neg => simp only [if_neg hm, raise, if_neg (not_and_of_not_right _ hm)]
  case neg => simp only [if_neg hw, raise, if_neg (not_and_of_not_left _ hw)]

theorem taskAddPage_run (hk : kmalloc ≠ 0) (hp : pmem 0 ≠ 0) {mem' : Mem}
    (h : (pteMap (fun n => pmem (n + 1)) s.task.userPte va (pmem 0) flags .page4K).run s.mem = (.ok (), mem')) :
    (taskAddPage kmalloc pmem va flags).run s = (.ok (some { addr := kmalloc, pa := pmem 0, va }), {
      task    := {
        userPte         := s.task.userPte
        pages           := { addr := kmalloc, pa := pmem 0, va } :: s.task.pages
        maxWritablePage := raise flags va s.task.maxWritablePage
      }
      mem     := mem'
      live    := (List.range <| pteMapAllocs s.mem s.task.userPte va .page4K).map (fun n => pmem (n + 1)) ++
        pmem 0 :: s.live
      objects := kmalloc :: s.objects
    }) := by
  rw [taskAddPage_eq hk hp]
  refine Eq.trans (ExceptT.run_bind_ok <| mapUser_run (r := .ok ()) ?_) rfl
  exact h

theorem taskAddPage_error (hk : kmalloc ≠ 0) (hp : pmem 0 ≠ 0) {mem' : Mem} {e : Fault}
    (h : (pteMap (fun n => pmem (n + 1)) s.task.userPte va (pmem 0) flags .page4K).run s.mem = (.error e, mem')) :
    ∃ s', (taskAddPage kmalloc pmem va flags).run s = (.error e, s') := by
  rw [taskAddPage_eq hk hp]
  exact ⟨_, ExceptT.run_bind_error <| mapUser_run (r := .error e) <| by exact h⟩

theorem taskRemovePage_none (h : s.task.pages.find? (fun pg => pg.va = va) = none) :
    (taskRemovePage va).run s = (.ok false, s) := by
  rw [taskRemovePage, ExceptT.run_bind_ok get_run, h]
  rfl

theorem taskRemovePage_run {pg : TaskPage} {mem' : Mem} (hf : s.task.pages.find? (fun pg => pg.va = va) = some pg)
    (h : (pteUnmap s.task.userPte va).run s.mem = (.ok (), mem')) (hp : pg.pa ∈ s.live) (ha : pg.addr ∈ s.objects) :
    (taskRemovePage va).run s = (.ok true, {
      task    := { s.task with pages := s.task.pages.erase pg }
      mem     := mem'
      live    := s.live.erase pg.pa
      objects := s.objects.erase pg.addr
    }) := by
  rw [taskRemovePage, ExceptT.run_bind_ok get_run, hf]
  simp only
  rw [ExceptT.run_bind_ok <| modify_run _]
  refine Eq.trans (ExceptT.run_bind_ok <| unmapUser_run ?_) <| Eq.trans (ExceptT.run_bind_ok <| pmemFree_run ?_) <|
    Eq.trans (ExceptT.run_bind_ok <| kfree_run ?_) rfl
  case refine_1 => exact h
  case refine_2 => exact hp
  case refine_3 => exact ha

end Zgmos.Process
