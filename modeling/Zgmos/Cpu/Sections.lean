import Zgmos.Cpu.Exclusion

-- What harts do with the data of a lock while they hold it, whatever the order of their steps is.

namespace Zgmos.Cpu

open Mutex (Section Serial sectionsOf)

variable {R V : Type}

-- The accesses between `spinlock_acquire` and `spinlock_release`.
def sectionActions (c : Section Lock R V) : List (Action R V) :=
  .call (.acquire c.lock) :: (c.body.map (.access c.lock) ++ [.call (.release c.lock)])

-- The sections that have been finished could have been executed one after the other, as single steps.
structure Serializes (prog : Fin hartNum → List (Section Lock R V)) (t : Serial (Fin hartNum) Lock R V)
    (es : List (Fin hartNum × Section Lock R V)) (m : Machine R V) : Prop where
  panic : ∀ i, (m.cores i).pc ≠ .panic
  data  : ∀ lk, (m.locks lk).locked = 0 → m.data lk = t.data lk
  reg   : ∀ i, (m.cores i).pc = .ready → (m.cores i).held = [] → (m.cores i).reg = t.reg i
  -- The order of the sections of each hart is that of its program.
  order : ∀ i, ∃ rest, prog i = sectionsOf i es ++ rest ∧ ((m.cores i).todo = [] → rest = [])

-- The hart has the lock of a section, and has not accessed the data so far.
structure Entered (prog : Fin hartNum → List (Section Lock R V)) (m : Machine R V) (i : Fin hartNum)
    (c : Section Lock R V) : Prop where
  pc   : (m.cores i).pc = .record c.lock
  past : ∃ done rest, prog i = done ++ c :: rest ∧ (m.cores i).past = done.flatMap sectionActions

-- What a section wants of the data is true when it gets the lock.
def Meets (pre : Section Lock R V → V → Prop) (prog : Fin hartNum → List (Section Lock R V)) (m : Machine R V)
    (is : List (Fin hartNum)) : Prop :=
  ∀ is₁ is₂ m₁ i c, is = is₁ ++ is₂ → m.Runs is₁ m₁ → Entered prog m₁ i c → pre c (m₁.data c.lock)

-- The same of sections that are executed one after the other.
def Meet (pre : Section Lock R V → V → Prop) (t : Serial (Fin hartNum) Lock R V)
    (es : List (Fin hartNum × Section Lock R V)) : Prop :=
  ∀ es₁ e es₂, es = es₁ ++ e :: es₂ → pre e.2 ((es₁.foldl Serial.exec t).data e.2.lock)

-- The sections that are going on have got the lock with data that are right.
structure Started (pre : Section Lock R V → V → Prop) (prog : Fin hartNum → List (Section Lock R V))
    (es : List (Fin hartNum × Section Lock R V)) (t : Serial (Fin hartNum) Lock R V)
    (s : Mutex.State (Fin hartNum) Lock R V) (m : Machine R V) : Prop extends Mutex.Serialized prog es t s where
  inv    : m.Inv s
  script : ∀ i, (m.cores i).past ++ (m.cores i).todo = (prog i).flatMap sectionActions
  pre    : ∀ i c rest before after, prog i = sectionsOf i es ++ c :: rest → Mutex.Inside t s i c rest before after →
    (m.cores i).pc ≠ .record c.lock → pre c (t.data c.lock)

variable {m m' : Machine R V} {s s' : Mutex.State (Fin hartNum) Lock R V} {prog : Fin hartNum → List (Section Lock R V)}
  {t : Serial (Fin hartNum) Lock R V} {es : List (Fin hartNum × Section Lock R V)} {i j : Fin hartNum} {op : Op}
  {is : List (Fin hartNum)} {lk : Lock} {todo : List (Mutex.Act Lock R V)}

theorem sectionActions_act (c : Section Lock R V) : (sectionActions c).map Action.act = c.acts := by
  simp [sectionActions, Section.acts, Action.act, Function.comp_def]

theorem map_sectionActions (cs : List (Section Lock R V)) :
    (cs.flatMap sectionActions).map Action.act = cs.flatMap Section.acts := by
  simp [List.map_flatMap, sectionActions_act]

namespace Machine.Inv

-- The next call of a hart is right.
theorem allowed (w : m.Inv s) (h : Mutex.Serialized prog es t s) (ht : s.todo i = (Action.call op).act :: todo) :
    op.Allowed (m.cores i).owned := by
  obtain ⟨rest, _, o⟩ | ⟨c, rest, before, after, _, o⟩ := h.agent i
  case inl =>
    have ⟨l, hl⟩ := o.head ht
    cases op
    case acquire lk => exact fun hm => o.owner lk <| w.owner_iff.mpr hm
    case release lk => cases hl
  case inr =>
    cases op
    case acquire lk => exact absurd ht o.not_acquire
    case release lk =>
      have ⟨_, hl, _⟩ := o.release ht
      exact hl ▸ w.owner_iff.mp o.owned

theorem serializes (w : m.Inv s) (h : Mutex.Serialized prog es t s) : Serializes prog t es m where
  panic i hp := by
    have ⟨⟨op, todo, ht, ha⟩, _⟩ := (w.core i).panic hp
    have hs : s.todo i = (Action.call op).act :: todo.map Action.act := by
      rw [← w.todo, Core.rest, hp, ht]
      rfl
    exact ha <| w.allowed h hs
  data lk hl := by
    rw [w.data]
    exact h.data lk <| w.owner_isNone hl
  reg i hp hh := by
    have ho : (m.cores i).owned = [] := (Core.owned_of_pending <| by rw [hp]; rfl).trans hh
    rw [w.reg]
    obtain ⟨rest, _, o⟩ | ⟨c, rest, before, after, _, o⟩ := h.agent i
    case inl => exact o.reg
    case inr =>
      have := w.owner_iff.mp o.owned
      rw [ho] at this
      cases this
  order i := by
    have hs (ht : (m.cores i).todo = []) : s.todo i = [] := by
      rw [← w.todo, Core.rest, ht, List.drop_nil, List.map_nil]
    obtain ⟨rest, hp, o⟩ | ⟨c, rest, before, after, hp, o⟩ := h.agent i
    case inl =>
      refine ⟨rest, hp, fun ht => ?_⟩
      have ht := o.todo.symm.trans <| hs ht
      cases rest
      case nil  => rfl
      case cons => simp [Section.acts] at ht
    case inr =>
      refine ⟨c :: rest, hp, fun ht => ?_⟩
      have ht := o.todo.symm.trans <| hs ht
      simp at ht

end Machine.Inv

namespace Started

variable {pre : Section Lock R V → V → Prop} {c : Section Lock R V} {rest : List (Section Lock R V)}
  {before after : List (R → V → R × V)} (w : Started pre prog es t s m)

include w

-- A hart with the lock has not accessed the data before it is at the end of `spinlock_acquire`.
theorem entered (hp : prog i = sectionsOf i es ++ c :: rest) (o : Mutex.Inside t s i c rest before after)
    (hc : (m.cores i).pc = .record c.lock) : Entered prog m i c ∧ m.data c.lock = t.data c.lock := by
  obtain ⟨todo, ht⟩ := (w.inv.core i).call (.acquire c.lock) (by rw [hc]; rfl)
  have hacts : todo.map Action.act = after.map (.access c.lock) ++ .release c.lock :: rest.flatMap Section.acts := by
    rw [← o.todo, ← w.inv.todo i, Core.rest, hc, ht]
    rfl
  have hlen : todo.length = (after.map (Action.access c.lock) ++
      Action.call (.release c.lock) :: rest.flatMap sectionActions).length := by
    have := congrArg List.length hacts
    rw [← map_sectionActions] at this
    simpa using this
  have hs : (m.cores i).past ++ [.call (.acquire c.lock)] ++ todo = (sectionsOf i es).flatMap sectionActions ++
      .call (.acquire c.lock) :: before.map (.access c.lock) ++
        (after.map (.access c.lock) ++ .call (.release c.lock) :: rest.flatMap sectionActions) := by
    have := w.script i
    rw [ht, hp] at this
    simpa [sectionActions, o.body] using this
  obtain ⟨hpast, _⟩ := List.append_inj' hs hlen
  obtain rfl | ⟨before, f, rfl⟩ := List.eq_nil_or_concat' before
  case inl =>
    have hdata := congrArg Prod.snd o.data
    refine ⟨⟨hc, _, _, hp, (List.append_inj' hpast rfl).1⟩, ?_⟩
    rw [w.inv.data]
    exact hdata
  case inr =>
    rw [List.map_append, ← List.cons_append, ← List.append_assoc] at hpast
    obtain ⟨_, h⟩ := List.append_inj' hpast rfl
    cases h

-- Whatever a hart with a lock does, the section has been entered with data that are right.
theorem pre_of_step (he : ∀ i c, Entered prog m i c → pre c (m.data c.lock))
    (hp : prog i = sectionsOf i es ++ c :: rest) (o : Mutex.Inside t s i c rest before after) :
    pre c (t.data c.lock) := by
  by_cases hc : (m.cores i).pc = .record c.lock
  case pos =>
    have ⟨e, hd⟩ := w.entered hp o hc
    exact hd ▸ he i c e
  case neg => exact w.pre i c rest before after hp o hc

-- A hart that is in a section has been in it before, or has got the lock just now.
theorem going (i : Fin hartNum) (w' : (m.step i).Inv s') (he : ∀ i c, Entered prog m i c → pre c (m.data c.lock))
    (hp : prog j = sectionsOf j es ++ c :: rest) (o : Mutex.Inside t s' j c rest before after)
    (hc : ((m.step i).cores j).pc ≠ .record c.lock) : pre c (t.data c.lock) := by
  obtain ⟨rest', hp', o'⟩ | ⟨c', rest', before', after', hp', o'⟩ := w.agent j
  case inr =>
    have hcs := List.append_cancel_left <| hp.symm.trans hp'
    injection hcs with hcc hrest
    subst hcc hrest
    by_cases hj : j = i
    case pos => exact w.pre_of_step he hp o'
    case neg => exact w.pre j c rest before' after' hp o' <| Machine.step_core_of_ne hj ▸ hc
  case inl =>
    have hn : c.lock ∉ (m.cores j).owned := fun h => o'.owner _ <| w.inv.owner_iff.mpr h
    have h : c.lock ∈ ((m.step i).cores j).owned := w'.owner_iff.mp o.owned
    by_cases hj : j = i
    case pos =>
      subst hj
      exact absurd (Machine.pc_of_owned (w.inv.core j) hn h) hc
    case neg => exact absurd (Machine.step_core_of_ne hj ▸ h) hn

theorem step (i : Fin hartNum) (he : ∀ i c, Entered prog m i c → pre c (m.data c.lock)) :
    (∃ s', Started pre prog es t s' (m.step i)) ∨
      ∃ c s', pre c (t.data c.lock) ∧ Started pre prog (es ++ [(i, c)]) (t.exec (i, c)) s' (m.step i) := by
  have hs (j : Fin hartNum) : ((m.step i).cores j).past ++ ((m.step i).cores j).todo = (prog j).flatMap sectionActions := by
    rw [← w.script j]
    by_cases hj : j = i
    case pos => rw [hj, Machine.step_script]
    case neg => rw [Machine.step_core_of_ne hj]
  obtain ⟨s', w', rfl | h⟩ := w.inv.step i
  case inl => exact .inl ⟨_, w.toSerialized, w', hs, fun j c rest before after hp o hc => w.going i w' he hp o hc⟩
  case inr =>
    obtain z | ⟨c, rest, hp, o, hn, z⟩ := w.toSerialized.step h
    case inl => exact .inl ⟨s', z, w', hs, fun j c rest before after hp o hc => w.going i w' he hp o hc⟩
    case inr =>
      refine .inr ⟨c, s', w.pre_of_step he hp o, z, w', hs, fun j c' rest' before after hp' o' hc => ?_⟩
      have howned := o'.owned
      rw [hn] at howned
      have hlock : c'.lock ≠ c.lock := fun h => by simp [h] at howned
      rw [Function.update_of_ne hlock] at howned
      have hj : j ≠ i := fun h => hlock <| (o.owner _).mp <| h ▸ howned
      rw [Mutex.sectionsOf_concat_of_ne hj] at hp'
      obtain ⟨_, _, oj⟩ | ⟨c'', rest'', before', after', hp'', oj⟩ := w.agent j
      case inl => exact absurd howned <| oj.owner _
      case inr =>
        have hcs := List.append_cancel_left <| hp'.symm.trans hp''
        injection hcs with hcc hrest
        subst hcc hrest
        have hd : (t.exec (i, c)).data c'.lock = t.data c'.lock := by simp [Serial.exec, hlock]
        exact hd ▸ w.pre j c' rest' before' after' hp' oj <| Machine.step_core_of_ne hj ▸ hc

end Started

-- Harts that acquire a lock for each access do not panic, and each of their sections is like a single step.
theorem Machine.Initial.run_serializes (h : m.Initial) (hp : ∀ i, (m.cores i).todo = (prog i).flatMap sectionActions)
    (r : m.Runs is m') : ∃ es, Serializes prog (es.foldl Serial.exec ⟨m.data, fun i => (m.cores i).reg⟩) es m' := by
  have ⟨_, s, _, r, w⟩ := h.inv.run r
  have ht (i : Fin hartNum) : m.abstract.todo i = (prog i).flatMap Section.acts := by
    rw [← map_sectionActions, ← hp]
    rfl
  have ⟨es, hs⟩ := Mutex.serialized (fun _ => rfl) ht r
  exact ⟨es, w.serializes hs⟩

-- The order is one in which each section finds the data as it wants them, if this was so when the harts got the locks.
theorem Machine.Initial.run_meets {pre : Section Lock R V → V → Prop} (h : m.Initial)
    (hp : ∀ i, (m.cores i).todo = (prog i).flatMap sectionActions) (hm : Meets pre prog m is) (r : m.Runs is m') :
    ∃ es, Serializes prog (es.foldl Serial.exec ⟨m.data, fun i => (m.cores i).reg⟩) es m' ∧
      Meet pre ⟨m.data, fun i => (m.cores i).reg⟩ es := by
  have hstart : Started pre prog [] ⟨m.data, fun i => (m.cores i).reg⟩ m.abstract m := by
    have ht (i : Fin hartNum) : m.abstract.todo i = (prog i).flatMap Section.acts := by
      rw [← map_sectionActions, ← hp]
      rfl
    refine ⟨⟨fun _ _ => rfl, fun i => .inl ⟨prog i, rfl, ht i, rfl, by simp [abstract]⟩⟩, h.inv, fun i => ?_, ?_⟩
    case refine_1 => rw [h.past, hp, List.nil_append]
    case refine_2 =>
      intro i c rest before after _ o
      cases o.owned
  have hrun (is₁ is₂ : List (Fin hartNum)) (m₁ : Machine R V) (he : is = is₁ ++ is₂) (r : m.Runs is₁ m₁) :
      ∃ es s, Started pre prog es (es.foldl Serial.exec ⟨m.data, fun i => (m.cores i).reg⟩) s m₁ ∧
        Meet pre ⟨m.data, fun i => (m.cores i).reg⟩ es := by
    induction is₁ using List.reverseRecOn generalizing is₂ m₁
    case nil =>
      cases r
      exact ⟨[], _, hstart, fun es₁ e es₂ he => by simp at he⟩
    case append_singleton is₁ i hi =>
      obtain ⟨m₀, r₀, r₁⟩ := r.split
      cases r₁
      case cons hs r₁ =>
        cases r₁
        obtain ⟨es, s, w, hes⟩ := hi (i :: is₂) m₀ (by simpa using he) r₀
        subst hs
        obtain ⟨s', w'⟩ | ⟨c, s', hc, w'⟩ := w.step i fun j c e => hm is₁ (i :: is₂) m₀ j c (by simpa using he) r₀ e
        case inl => exact ⟨es, s', w', hes⟩
        case inr =>
          refine ⟨es ++ [(i, c)], s', by rwa [List.foldl_append], fun es₁ e es₂ he => ?_⟩
          obtain rfl | ⟨es₂, e', rfl⟩ := List.eq_nil_or_concat' es₂
          case inl =>
            obtain ⟨h₁, h₂⟩ := List.append_inj' he rfl
            cases h₂
            exact h₁ ▸ hc
          case inr =>
            rw [← List.cons_append, ← List.append_assoc] at he
            exact hes es₁ e es₂ (List.append_inj' he rfl).1
  obtain ⟨es, s, w, hes⟩ := hrun is [] m' (by simp) r
  exact ⟨es, w.inv.serializes w.toSerialized, hes⟩

-- The increments are like single steps.
theorem counter_serializes : ∃ es, Serializes (fun _ => [⟨5, [fun _ v => (v, v), fun r _ => (r, r + 1)]⟩])
    (es.foldl Serial.exec ⟨fun _ => 0, fun _ => 0⟩) es <|
      (List.replicate 15 (List.finRange hartNum)).flatten.foldl Machine.step counter :=
  counter_initial.run_serializes (fun _ => rfl) <| Machine.runs_foldl ..

end Zgmos.Cpu
