import Mathlib

-- Programs which ask for values of `ο` with requests of `ι`, and which end with a result or fail with
-- an error of `ε`.
inductive Program (ι ο ε α : Type)
  | done (r : Except ε α)
  | ask  (i : ι) (k : ο → Program ι ο ε α)

namespace Program

variable {ι κ ο ε σ α β : Type}

def bind (f : α → Program ι ο ε β) : Program ι ο ε α → Program ι ο ε β
  | done (.ok a)    => f a
  | done (.error e) => done (.error e)
  | ask i k         => ask i fun o => (k o).bind f

instance : Monad (Program ι ο ε) where
  pure a   := done (.ok a)
  bind p f := p.bind f

def fail (e : ε) : Program ι ο ε α :=
  done (.error e)

-- The answer to a request.
def get (i : ι) : Program ι ο ε ο :=
  ask i fun o => done (.ok o)

-- The result if `h` answers the requests.
def eval (h : ι → ο) : Program ι ο ε α → Except ε α
  | done r  => r
  | ask i k => (k <| h i).eval h

-- The requests if `h` answers them.
def asked (h : ι → ο) : Program ι ο ε α → List ι
  | done _  => []
  | ask i k => i :: (k <| h i).asked h

open Classical in
-- The result if there is one and only requests in `q` are made.
noncomputable def evalIn (q : ι → Prop) (h : ι → ο) : Program ι ο ε α → Option α
  | done r  => r.toOption
  | ask i k => if q i then (k <| h i).evalIn q h else none

-- The execution if the answers come from a state that changes with each of them.
def run (step : σ → ι → Except ε (ο × σ)) : Program ι ο ε α → σ → Except ε (α × σ)
  | done (.ok a),    s => .ok (a, s)
  | done (.error e), _ => .error e
  | ask i k,         s => step s i >>= fun (o, s) => (k o).run step s

-- The same program where each request is written in another way.
def relabel (g : ι → κ) : Program ι ο ε α → Program κ ο ε α
  | done r  => done r
  | ask i k => ask (g i) fun o => (k o).relabel g

@[simp]
theorem eval_done {h : ι → ο} (r : Except ε α) : (done r : Program ι ο ε α).eval h = r :=
  rfl

@[simp]
theorem asked_done {h : ι → ο} (r : Except ε α) : (done r : Program ι ο ε α).asked h = [] :=
  rfl

variable {h : ι → ο} {p : Program ι ο ε α} {f : α → Program ι ο ε β} {a : α} {e : ε}

@[simp]
theorem eval_pure : (pure a : Program ι ο ε α).eval h = .ok a :=
  rfl

@[simp]
theorem eval_fail : (fail e : Program ι ο ε α).eval h = .error e :=
  rfl

@[simp]
theorem eval_get (i : ι) : (get i : Program ι ο ε ο).eval h = .ok (h i) :=
  rfl

@[simp]
theorem eval_bind : (p >>= f).eval h = p.eval h >>= fun a => (f a).eval h := by
  induction p
  case done r       => cases r <;> rfl
  case ask i k hi   => exact hi (h i)

theorem eval_bind_ok (hp : p.eval h = .ok a) : (p >>= f).eval h = (f a).eval h := by
  rw [eval_bind, hp]
  rfl

@[simp]
theorem asked_pure : (pure a : Program ι ο ε α).asked h = [] :=
  rfl

@[simp]
theorem asked_get (i : ι) : (get i : Program ι ο ε ο).asked h = [i] :=
  rfl

theorem asked_bind_ok (hp : p.eval h = .ok a) : (p >>= f).asked h = p.asked h ++ (f a).asked h := by
  induction p
  case done r     => cases hp; rfl
  case ask i k hi => exact congrArg (i :: ·) (hi (h i) hp)

-- A composed program asks what its parts ask.

theorem mem_asked_bind {i : ι} (hi : i ∈ p.asked h) : i ∈ (p >>= f).asked h := by
  induction p
  case done        => nomatch hi
  case ask j k hk =>
    cases List.mem_cons.mp hi
    case inl he => exact he ▸ .head _
    case inr hm => exact .tail _ <| hk (h j) hm

theorem forall_asked_bind {q : ι → Prop} (hp : ∀ i ∈ p.asked h, q i)
    (hf : ∀ a, p.eval h = .ok a → ∀ i ∈ (f a).asked h, q i) : ∀ i ∈ (p >>= f).asked h, q i := by
  induction p
  case done r =>
    cases r
    case error => exact nofun
    case ok a  => exact hf a rfl
  case ask i k hi =>
    intro j hj
    cases List.mem_cons.mp (show j ∈ i :: ((k <| h i) >>= f).asked h from hj)
    case inl he => exact he ▸ hp i (.head _)
    case inr hm => exact hi (h i) (fun j hj => hp j <| .tail _ hj) hf j hm

section Relabel

variable {g : ι → κ} {h : κ → ο}

theorem relabel_bind : (p >>= f).relabel g = p.relabel g >>= fun a => (f a).relabel g := by
  induction p
  case done r     => cases r <;> rfl
  case ask i k hi => exact congrArg (ask (g i)) <| funext hi

theorem eval_relabel : (p.relabel g).eval h = p.eval (h ∘ g) := by
  induction p
  case done       => rfl
  case ask i k hi => exact hi (h <| g i)

theorem asked_relabel : (p.relabel g).asked h = (p.asked <| h ∘ g).map g := by
  induction p
  case done       => rfl
  case ask i k hi => exact congrArg (g i :: ·) (hi (h <| g i))

end Relabel

section EvalIn

variable {q : ι → Prop}

@[simp]
theorem evalIn_pure : (pure a : Program ι ο ε α).evalIn q h = some a :=
  rfl

@[simp]
theorem evalIn_fail : (fail e : Program ι ο ε α).evalIn q h = none :=
  rfl

@[simp]
theorem evalIn_done (r : Except ε α) : (done r : Program ι ο ε α).evalIn q h = r.toOption :=
  rfl

theorem evalIn_get {i : ι} (hi : q i) : (get i : Program ι ο ε ο).evalIn q h = some (h i) :=
  if_pos hi

theorem evalIn_get_not {i : ι} (hi : ¬q i) : (get i : Program ι ο ε ο).evalIn q h = none :=
  if_neg hi

@[simp]
theorem evalIn_bind : (p >>= f).evalIn q h = (p.evalIn q h).bind fun a => (f a).evalIn q h := by
  induction p
  case done r     => cases r <;> rfl
  case ask i k hi =>
    have hb : (ask i k >>= f).evalIn q h = (ask i fun o => k o >>= f).evalIn q h := rfl
    by_cases hq : q i
    case pos => simp only [hb, evalIn, if_pos hq, hi]
    case neg => simp only [hb, evalIn, if_neg hq, Option.bind_none]

theorem evalIn_eq_some_iff : p.evalIn q h = some a ↔ p.eval h = .ok a ∧ ∀ i ∈ p.asked h, q i := by
  induction p
  case done r     => cases r <;> simp [evalIn, eval, Except.toOption, asked]
  case ask i k hi =>
    by_cases hq : q i <;> simp [evalIn, eval, asked, hq, hi]

theorem evalIn_true : p.evalIn (fun _ => True) h = (p.eval h).toOption := by
  induction p
  case done r     => rfl
  case ask i k hi => simp [evalIn, eval, hi]

end EvalIn

-- A state whose answers are always those of `h` gives the same result.
theorem run_eq_eval {step : σ → ι → Except ε (ο × σ)} {q : σ → Prop}
    (hs : ∀ s i, q s → ∃ s', step s i = .ok (h i, s') ∧ q s') (p : Program ι ο ε α) {s : σ} (hq : q s) :
    ∃ s', p.run step s = (p.eval h).map (·, s') ∧ q s' := by
  induction p generalizing s
  case done r =>
    refine ⟨s, ?_, hq⟩
    cases r <;> rfl
  case ask i k hi =>
    have ⟨s₁, h₁, q₁⟩ := hs s i hq
    have ⟨s₂, h₂, q₂⟩ := hi (h i) q₁
    exact ⟨s₂, by rw [run, h₁]; exact h₂, q₂⟩

end Program
