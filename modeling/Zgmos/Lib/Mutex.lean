import Zgmos.Lib.Run

-- Agents with data that are guarded by locks. Acquiring a lock is a single step.

namespace Mutex

-- An access reads and writes the data of a lock and the register of the agent.
inductive Act (L R V : Type*)
  | acquire (l : L)
  | release (l : L)
  | access (l : L) (f : R → V → R × V)

structure State (A L R V : Type*) where
  owner : L → Option A
  data  : L → V
  reg   : A → R
  todo  : A → List (Act L R V)

variable {A L R V : Type*}

open Function (update)

-- A lock that is held is not acquired, and only its owner releases it. Nothing is said about the owner of data that are
-- accessed.
inductive Step [DecidableEq A] [DecidableEq L] : State A L R V → A → State A L R V → Prop
  | acquire {s a l todo} : s.todo a = .acquire l :: todo → s.owner l = none →
    Step s a { s with owner := update s.owner l (some a), todo := update s.todo a todo }
  | release {s a l todo} : s.todo a = .release l :: todo → s.owner l = some a →
    Step s a { s with owner := update s.owner l none, todo := update s.todo a todo }
  | access {s a l f todo} : s.todo a = .access l f :: todo → Step s a { s with
      data := update s.data l (f (s.reg a) <| s.data l).2
      reg  := update s.reg a (f (s.reg a) <| s.data l).1
      todo := update s.todo a todo }

-- Accesses to the data of a lock, while it is held.
structure Section (L R V : Type*) where
  lock : L
  body : List (R → V → R × V)

def Section.acts (c : Section L R V) : List (Act L R V) :=
  .acquire c.lock :: (c.body.map (.access c.lock) ++ [.release c.lock])

def runBody (body : List (R → V → R × V)) (p : R × V) : R × V :=
  body.foldl (fun p f => f p.1 p.2) p

-- The agents while they hold no lock.
structure Serial (A L R V : Type*) where
  data : L → V
  reg  : A → R

-- A section is a single step.
def Serial.exec [DecidableEq A] [DecidableEq L] (t : Serial A L R V) (e : A × Section L R V) : Serial A L R V :=
  let p := runBody e.2.body (t.reg e.1, t.data e.2.lock)
  { data := update t.data e.2.lock p.2, reg := update t.reg e.1 p.1 }

-- The sections of an agent.
def sectionsOf [DecidableEq A] (a : A) (es : List (A × Section L R V)) : List (Section L R V) :=
  (es.filter (·.1 = a)).map (·.2)

-- The agent is between two sections.
structure Outside (t : Serial A L R V) (s : State A L R V) (a : A) (rest : List (Section L R V)) : Prop where
  todo  : s.todo a = rest.flatMap Section.acts
  reg   : s.reg a = t.reg a
  owner : ∀ l, s.owner l ≠ some a

-- The agent has done the accesses `before` of the section.
structure Inside (t : Serial A L R V) (s : State A L R V) (a : A) (c : Section L R V) (rest : List (Section L R V))
    (before after : List (R → V → R × V)) : Prop where
  body  : c.body = before ++ after
  todo  : s.todo a = after.map (.access c.lock) ++ .release c.lock :: rest.flatMap Section.acts
  data  : (s.reg a, s.data c.lock) = runBody before (t.reg a, t.data c.lock)
  owner : ∀ l, s.owner l = some a ↔ l = c.lock

-- The sections `es` have been finished in this order.
structure Serialized [DecidableEq A] (prog : A → List (Section L R V)) (es : List (A × Section L R V)) (t : Serial A L R V)
    (s : State A L R V) : Prop where
  data  : ∀ l, s.owner l = none → s.data l = t.data l
  agent : ∀ a, (∃ rest, prog a = sectionsOf a es ++ rest ∧ Outside t s a rest) ∨
    ∃ c rest before after, prog a = sectionsOf a es ++ c :: rest ∧ Inside t s a c rest before after

variable {s s' : State A L R V} {a b : A} {l : L} {t : Serial A L R V} {c : Section L R V} {rest : List (Section L R V)}
  {before after body : List (R → V → R × V)} {prog : A → List (Section L R V)} {es : List (A × Section L R V)}

theorem runBody_concat (f : R → V → R × V) (p : R × V) :
    runBody (body ++ [f]) p = f (runBody body p).1 (runBody body p).2 := by
  simp [runBody]

theorem sectionsOf_concat_self [DecidableEq A] : sectionsOf a (es ++ [(a, c)]) = sectionsOf a es ++ [c] := by
  simp [sectionsOf]

theorem sectionsOf_concat_of_ne [DecidableEq A] (h : b ≠ a) : sectionsOf b (es ++ [(a, c)]) = sectionsOf b es := by
  simp [sectionsOf, h.symm]

namespace Inside

variable (w : Inside t s a c rest before after)

include w

theorem owned : s.owner c.lock = some a :=
  (w.owner _).mpr rfl

-- What the agent does next.

theorem not_acquire {todo} : s.todo a ≠ .acquire l :: todo := by
  rw [w.todo]
  cases after <;> simp

theorem access {f todo} (h : s.todo a = .access l f :: todo) : ∃ after', after = f :: after' ∧ l = c.lock ∧
    todo = after'.map (.access c.lock) ++ .release c.lock :: rest.flatMap Section.acts := by
  rw [w.todo] at h
  cases after
  case nil => simp at h
  case cons f' after =>
    simp only [List.map_cons, List.cons_append, List.cons.injEq, Act.access.injEq] at h
    exact ⟨after, by rw [h.1.2], h.1.1.symm, h.2.symm⟩

theorem release {todo} (h : s.todo a = .release l :: todo) : after = [] ∧ l = c.lock ∧
    todo = rest.flatMap Section.acts := by
  rw [w.todo] at h
  cases after
  case nil =>
    simp only [List.map_nil, List.nil_append, List.cons.injEq, Act.release.injEq] at h
    exact ⟨rfl, h.1.symm, h.2.symm⟩
  case cons => simp at h

-- What other agents leave alone.
theorem frame {s' : State A L R V} {t' : Serial A L R V} (ho : ∀ l, s'.owner l = some a ↔ s.owner l = some a)
    (ht : s'.todo a = s.todo a) (hr : s'.reg a = s.reg a) (hd : s'.data c.lock = s.data c.lock)
    (hr' : t'.reg a = t.reg a) (hd' : t'.data c.lock = t.data c.lock) : Inside t' s' a c rest before after where
  body  := w.body
  todo  := ht ▸ w.todo
  data  := by rw [hr, hd, hr', hd', w.data]
  owner := fun l => (ho l).trans <| w.owner l

end Inside

namespace Outside

variable (w : Outside t s a rest)

include w

theorem acquire {todo} (h : s.todo a = .acquire l :: todo) : ∃ c rest', rest = c :: rest' ∧ l = c.lock ∧
    todo = c.body.map (.access c.lock) ++ .release c.lock :: rest'.flatMap Section.acts := by
  rw [w.todo] at h
  cases rest
  case nil => simp at h
  case cons c rest =>
    simp only [List.flatMap_cons, Section.acts, List.cons_append, List.cons.injEq, Act.acquire.injEq] at h
    exact ⟨c, rest, rfl, h.1.symm, by simpa using h.2.symm⟩

theorem head {act todo} (h : s.todo a = act :: todo) : ∃ l, act = .acquire l := by
  rw [w.todo] at h
  cases rest
  case nil => simp at h
  case cons c rest =>
    simp only [List.flatMap_cons, Section.acts, List.cons_append, List.cons.injEq] at h
    exact ⟨c.lock, h.1.symm⟩

theorem frame {s' : State A L R V} {t' : Serial A L R V} (ho : ∀ l, s'.owner l = some a ↔ s.owner l = some a)
    (ht : s'.todo a = s.todo a) (hr : s'.reg a = s.reg a) (hr' : t'.reg a = t.reg a) : Outside t' s' a rest where
  todo  := ht ▸ w.todo
  reg   := by rw [hr, hr', w.reg]
  owner := fun l => mt (ho l).mp <| w.owner l

end Outside

variable [DecidableEq A] [DecidableEq L]

-- A section takes effect when its lock is released.
theorem Serialized.step (w : Serialized prog es t s) (h : Step s a s') :
    Serialized prog es t s' ∨ ∃ c rest, prog a = sectionsOf a es ++ c :: rest ∧ Inside t s a c rest c.body [] ∧
      s'.owner = update s.owner c.lock none ∧ Serialized prog (es ++ [(a, c)]) (t.exec (a, c)) s' := by
  cases h
  case acquire l todo ht ho =>
    left
    obtain ⟨rest, hp, o⟩ | ⟨c, rest, before, after, hp, i⟩ := w.agent a
    case inr => exact absurd ht i.not_acquire
    case inl =>
      obtain ⟨c, rest, rfl, rfl, htodo⟩ := o.acquire ht
      refine ⟨fun l hl => ?_, fun b => ?_⟩
      case refine_1 =>
        by_cases hc : l = c.lock
        case pos => simp [hc] at hl
        case neg => exact w.data l <| by simpa [hc] using hl
      case refine_2 =>
        by_cases hb : b = a
        case pos =>
          subst hb
          refine .inr ⟨c, rest, [], c.body, hp, rfl, ?_, ?_, fun l => ?_⟩
          case refine_1 => simpa using htodo
          case refine_2 => exact Prod.ext o.reg <| w.data _ ho
          case refine_3 =>
            by_cases hc : l = c.lock
            case pos => simp [hc]
            case neg => simpa [hc] using o.owner l
        case neg =>
          have howner (l : L) : update s.owner c.lock (some a) l = some b ↔ s.owner l = some b := by
            by_cases hc : l = c.lock
            case pos => simp [hc, ho, Ne.symm hb]
            case neg => simp [hc]
          refine (w.agent b).imp (fun ⟨rest, hp, o⟩ => ⟨rest, hp, ?_⟩) fun ⟨c, rest, before, after, hp, i⟩ =>
            ⟨c, rest, before, after, hp, ?_⟩
          case refine_1 => exact o.frame howner (by simp [hb]) rfl rfl
          case refine_2 => exact i.frame howner (by simp [hb]) rfl rfl rfl rfl
  case access l f todo ht =>
    left
    obtain ⟨rest, hp, o⟩ | ⟨c, rest, before, after, hp, i⟩ := w.agent a
    case inl =>
      obtain ⟨_, h⟩ := o.head ht
      cases h
    case inr =>
      obtain ⟨after, rfl, rfl, htodo⟩ := i.access ht
      refine ⟨fun l hl => ?_, fun b => ?_⟩
      case refine_1 =>
        have hc : l ≠ c.lock := by
          rintro rfl
          rw [i.owned] at hl
          cases hl
        simpa [hc] using w.data l hl
      case refine_2 =>
        by_cases hb : b = a
        case pos =>
          subst hb
          refine .inr ⟨c, rest, before ++ [f], after, hp, by simp [i.body], ?_, ?_, i.owner⟩
          case refine_1 => simpa using htodo
          case refine_2 =>
            rw [runBody_concat, ← i.data]
            simp
        case neg =>
          refine (w.agent b).imp (fun ⟨rest, hp, o⟩ => ⟨rest, hp, ?_⟩) fun ⟨c', rest, before, after, hp, i'⟩ =>
            ⟨c', rest, before, after, hp, ?_⟩
          case refine_1 => exact o.frame (fun _ => .rfl) (by simp [hb]) (by simp [hb]) rfl
          case refine_2 =>
            have hc : c'.lock ≠ c.lock := fun h => hb <| Option.some.inj <| i'.owned.symm.trans <| h ▸ i.owned
            exact i'.frame (fun _ => .rfl) (by simp [hb]) (by simp [hb]) (by simp [hc]) rfl rfl
  case release l todo ht ho =>
    right
    obtain ⟨rest, hp, o⟩ | ⟨c, rest, before, after, hp, i⟩ := w.agent a
    case inl =>
      obtain ⟨_, h⟩ := o.head ht
      cases h
    case inr =>
      obtain ⟨rfl, rfl, htodo⟩ := i.release ht
      have hbody : runBody c.body (t.reg a, t.data c.lock) = (s.reg a, s.data c.lock) := by
        rw [i.data, i.body, List.append_nil]
      have hall : before = c.body := i.body.symm ▸ (List.append_nil _).symm
      refine ⟨c, rest, hp, hall ▸ i, rfl, fun l hl => ?_, fun b => ?_⟩
      case refine_1 =>
        by_cases hc : l = c.lock
        case pos => simp [Serial.exec, hbody, hc]
        case neg => simpa [Serial.exec, hc] using w.data l <| by simpa [hc] using hl
      case refine_2 =>
        by_cases hb : b = a
        case pos =>
          subst hb
          refine .inl ⟨rest, by simp [sectionsOf_concat_self, hp], by simpa using htodo, by simp [Serial.exec, hbody],
            fun l => ?_⟩
          by_cases hc : l = c.lock
          case pos => simp [hc]
          case neg => simpa [hc] using mt (i.owner l).mp hc
        case neg =>
          have howner (l : L) : update s.owner c.lock none l = some b ↔ s.owner l = some b := by
            by_cases hc : l = c.lock
            case pos => simp [hc, ho, Ne.symm hb]
            case neg => simp [hc]
          rw [sectionsOf_concat_of_ne hb]
          refine (w.agent b).imp (fun ⟨rest, hp, o⟩ => ⟨rest, hp, ?_⟩) fun ⟨c', rest, before, after, hp, i'⟩ =>
            ⟨c', rest, before, after, hp, ?_⟩
          case refine_1 => exact o.frame howner (by simp [hb]) rfl (by simp [Serial.exec, hb])
          case refine_2 =>
            have hc : c'.lock ≠ c.lock := fun h => hb <| Option.some.inj <| i'.owned.symm.trans <| h ▸ i.owned
            exact i'.frame howner (by simp [hb]) rfl rfl (by simp [Serial.exec, hb]) (by simp [Serial.exec, hc])

-- A run in which the agents hold a lock only in their sections is one in which each section is a single step.
theorem serialized {as : List A} (ho : ∀ l, s.owner l = none) (ht : ∀ a, s.todo a = (prog a).flatMap Section.acts)
    (r : Run Step s as s') : ∃ es, Serialized prog es (es.foldl Serial.exec ⟨s.data, s.reg⟩) s' := by
  refine r.invariant (p := fun s' => ∃ es, Serialized prog es (es.foldl Serial.exec ⟨s.data, s.reg⟩) s') ?_ ⟨[], ?_⟩
  case refine_1 =>
    intro s₁ a s₂ ⟨es, w⟩ h
    obtain w | ⟨c, _, _, _, _, w⟩ := w.step h
    case inl => exact ⟨es, w⟩
    case inr => exact ⟨es ++ [(a, c)], by rwa [List.foldl_append]⟩
  case refine_2 => exact ⟨fun _ _ => rfl, fun a => .inl ⟨prog a, rfl, ht a, rfl, by simp [ho]⟩⟩

end Mutex
