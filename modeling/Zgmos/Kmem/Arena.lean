import Zgmos.Kmem.Objects

namespace Zgmos.Kmem

-- A slab together with the objects that are live.
structure Arena where
  slab  : Slab
  words : Words
  live  : List Nat

namespace Arena

def create (w : Words) (pageAddr sizeObj order : Nat) : Except Fault Arena := do
  let (slab, words) ← slabCreateEx w pageAddr sizeObj order
  return { slab, words, live := [] }

def alloc (s : Arena) : Except Fault Arena := do
  let (ret, slab) ← slabAlloc s.slab s.words
  return { s with slab, live := if ret = 0 then s.live else ret :: s.live }

def free (s : Arena) (a : Nat) : Except Fault Arena := do
  let (slab, words) ← slabFree s.slab s.words a
  return { slab, words, live := s.live.erase a }

end Arena

inductive Use
  | alloc
  | free (a : Nat)
  | write (w : Words)

-- The owners write to their objects, and anyone writes behind the slab.
inductive Use.Step : Except Fault Arena → Use → Except Fault Arena → Prop
  | alloc : Use.Step (.ok s) .alloc s.alloc
  | free (h : a ∈ s.live) : Use.Step (.ok s) (.free a) (s.free a)
  | write (h : ∀ a, s.slab.Inside a → (∀ b ∈ s.live, a + 8 ≤ b ∨ b + s.slab.sizeObj ≤ a) → w a = s.words a) :
    Use.Step (.ok s) (.write w) (.ok { s with words := w })

-- The steps of which the next state can be computed.
def exec : Except Fault Arena → Use → Option (Except Fault Arena)
  | .ok s, .alloc  => some s.alloc
  | .ok s, .free a => if a ∈ s.live then some (s.free a) else none
  | _,     _       => none

theorem Use.Step.of_exec {r r' : Except Fault Arena} {use : Use} (h : exec r use = some r') : use.Step r r' := by
  cases r
  case error => cases use <;> cases h
  case ok s =>
    cases use
    case alloc =>
      cases h
      exact .alloc
    case free a =>
      simp only [exec, Option.ite_none_right_eq_some] at h
      have ⟨ha, he⟩ := h
      cases he
      exact .free ha
    case write => cases h

namespace Arena

-- The state of a slab of which the pages and the sizes are given.
structure Disciplined (s : Arena) (pageAddr sizeObj order : Nat) : Prop where
  object : a ∈ s.live → (∃ k < 2 ^ order * pageSize / sizeObj, a = pageAddr + k * sizeObj) ∧
    a + sizeObj ≤ pageAddr + 2 ^ order * pageSize
  nodup  : s.live.Nodup
  total  : s.slab.totalObj = 2 ^ order * pageSize / sizeObj
  count  : s.slab.freeObj + s.live.length = s.slab.totalObj
  -- What the next allocation returns.
  alloc  : ∃ ret slab, slabAlloc s.slab s.words = .ok (ret, slab) ∧ (ret = 0 ↔ s.live.length = s.slab.totalObj) ∧
    (ret ≠ 0 → (∃ k < s.slab.totalObj, ret = pageAddr + k * sizeObj) ∧
      ret + sizeObj ≤ pageAddr + 2 ^ order * pageSize ∧ ret ∉ s.live ∧
      ∀ k < s.slab.totalObj, pageAddr + k * sizeObj ∉ s.live → ret ≤ pageAddr + k * sizeObj)

-- The invariant of all runs.
structure Inv (s : Arena) (pageAddr sizeObj order : Nat) : Prop where
  sound : s.slab.Sound s.words s.live
  pg    : s.slab.pg = pageAddr
  size  : s.slab.sizeObj = sizeObj
  order : s.slab.order = order

variable {s s' : Arena} {r : Except Fault Arena} {pageAddr sizeObj order a : Nat} {use : Use} {uses : List Use}
  {w : Words}

theorem Inv.init (hp : 0 < pageAddr) (hs : 0 < sizeObj) (hd : 8 ∣ sizeObj) (order : Nat) (w : Words) :
    ∃ s, create w pageAddr sizeObj order = .ok s ∧ s.Inv pageAddr sizeObj order := by
  have ⟨slab, w', hr, h, hpg, hsz, ho, _⟩ := Slab.slabCreateEx_spec order hp hs hd w
  refine ⟨⟨slab, w', []⟩, ?_, h, hpg, hsz, ho⟩
  simp only [create, hr, bind, Except.bind]
  rfl

theorem Inv.alloc (v : s.Inv pageAddr sizeObj order) : ∃ s', s.alloc = .ok s' ∧ s'.Inv pageAddr sizeObj order := by
  have hle : s.live.length ≤ s.slab.totalObj := by
    have := v.sound.count
    omega
  cases Nat.eq_or_lt_of_le hle
  case inl he =>
    refine ⟨s, ?_, v⟩
    simp only [Arena.alloc, Slab.slabAlloc_full v.sound he, bind, Except.bind]
    rfl
  case inr hl =>
    have ⟨ret, slab, hr, h⟩ := Slab.slabAlloc_spec v.sound hl
    have hret := v.sound.place_pos <| v.sound.place_of_obj h.obj
    refine ⟨{ s with slab, live := ret :: s.live }, ?_, h.sound, ?_, ?_, ?_⟩
    case refine_1 =>
      simp only [Arena.alloc, hr, bind, Except.bind, if_neg hret.ne']
      rfl
    all_goals simp only [h.eq, v.pg, v.size, v.order]

theorem Inv.free (v : s.Inv pageAddr sizeObj order) (ha : a ∈ s.live) :
    ∃ s', s.free a = .ok s' ∧ s'.Inv pageAddr sizeObj order := by
  have ⟨slab, words, hr, h⟩ := Slab.slabFree_spec v.sound ha
  refine ⟨⟨slab, words, s.live.erase a⟩, ?_, h.sound, ?_, ?_, ?_⟩
  case refine_1 =>
    simp only [Arena.free, hr, bind, Except.bind]
    rfl
  all_goals rw [h.eq]
  case refine_2 => exact v.pg
  case refine_3 => exact v.size
  case refine_4 => exact v.order

-- The links of the free places lie in no object which is live.
theorem Inv.write (v : s.Inv pageAddr sizeObj order)
    (h : ∀ a, s.slab.Inside a → (∀ b ∈ s.live, a + 8 ≤ b ∨ b + s.slab.sizeObj ≤ a) → w a = s.words a) :
    { s with words := w }.Inv pageAddr sizeObj order where
  pg    := v.pg
  size  := v.size
  order := v.order
  sound := v.sound.congr fun a ha hl => by
    refine h a (v.sound.place_inside ha) fun b hb => ?_
    have hpb := v.sound.place_of_obj <| v.sound.obj b hb
    have hsize : 8 ≤ s.slab.sizeObj := Nat.le_of_dvd v.sound.size v.sound.dvd
    cases Nat.lt_or_ge a b
    case inl hlt => exact .inl <| (Nat.add_le_add_left hsize a).trans <| Slab.Shape.obj_apart ha hpb hlt
    case inr hge =>
      have hne : b ≠ a := fun he => hl <| he ▸ hb
      exact .inr <| Slab.Shape.obj_apart hpb ha <| by omega

theorem Inv.step (v : s.Inv pageAddr sizeObj order) (e : use.Step (.ok s) r) :
    ∃ s', r = .ok s' ∧ s'.Inv pageAddr sizeObj order := by
  cases e
  case alloc   => exact v.alloc
  case free h  => exact v.free h
  case write h => exact ⟨_, rfl, v.write h⟩

theorem Inv.disciplined (v : s.Inv pageAddr sizeObj order) : s.Disciplined pageAddr sizeObj order := by
  have hb : s.slab.bytes = 2 ^ order * pageSize := by rw [Slab.bytes, v.order, Nat.mul_comm]
  have ht : s.slab.totalObj = 2 ^ order * pageSize / sizeObj := by rw [v.sound.total, hb, v.size]
  have hin : ∀ {a}, s.slab.Obj a → (∃ k < s.slab.totalObj, a = pageAddr + k * sizeObj) ∧
      a + sizeObj ≤ pageAddr + 2 ^ order * pageSize := fun {a} ha => by
    have hle := (v.sound.obj_le ha).2
    rw [v.pg, v.size, hb] at hle
    obtain ⟨k, hk, he⟩ := ha
    rw [v.pg, v.size] at he
    exact ⟨⟨k, hk, he⟩, hle⟩
  constructor
  case object => exact fun ha => ht ▸ hin (v.sound.obj _ ha)
  case nodup  => exact v.sound.nodup
  case total  => exact ht
  case count  => exact v.sound.count
  case alloc  =>
    have hle : s.live.length ≤ s.slab.totalObj := by
      have := v.sound.count
      omega
    cases Nat.eq_or_lt_of_le hle
    case inl he => exact ⟨0, s.slab, Slab.slabAlloc_full v.sound he, by simp [he], by simp⟩
    case inr hl =>
      obtain ⟨ret, slab, hr, h⟩ := Slab.slabAlloc_spec v.sound hl
      have hret := v.sound.place_pos <| v.sound.place_of_obj h.obj
      refine ⟨ret, slab, hr, by omega, fun _ => ⟨(hin h.obj).1, (hin h.obj).2, h.free, fun k hk hl => ?_⟩⟩
      exact h.least _ ⟨k, hk, by rw [v.pg, v.size]⟩ hl

-- No access to a link leaves the pages of the slab, and the objects are as they should be in all states.
theorem run_disciplined (hp : 0 < pageAddr) (hs : 0 < sizeObj) (hd : 8 ∣ sizeObj)
    (h : Run Use.Step (create w pageAddr sizeObj order) uses r) :
    ∃ s, r = .ok s ∧ s.Disciplined pageAddr sizeObj order := by
  have ⟨s₀, h₀, v₀⟩ := Inv.init hp hs hd order w
  have ⟨s, hr, v⟩ : ∃ s, r = .ok s ∧ s.Inv pageAddr sizeObj order := by
    apply h.invariant (p := fun r => ∃ s, r = .ok s ∧ s.Inv pageAddr sizeObj order)
    case hs => exact ⟨s₀, h₀, v₀⟩
    case h =>
      intro r use r' ⟨s, hs, v⟩ e
      subst hs
      exact v.step e
  exact ⟨s, hr, v.disciplined⟩

-- Two objects fit into the page, and behind them there is a place for a third one that does not.
theorem shortPage_disciplined : ∃ s, Run Use.Step (create (fun _ => 0) 0x80001000 1504 0)
    [.alloc, .alloc, .free 0x80001000, .alloc] (.ok s) ∧ s.live = [0x80001000, 0x800015e0] ∧
      s.Disciplined 0x80001000 1504 0 := by
  have he : ([.alloc, .alloc, .free 0x80001000, .alloc].foldlM exec (create (fun _ => 0) 0x80001000 1504 0)).map
      (Except.map Arena.live) = some (.ok [0x80001000, 0x800015e0]) := by decide +kernel
  have ⟨r, hr, he⟩ := Option.map_eq_some_iff.mp he
  have h := Run.of_foldlM (fun _ _ _ => Use.Step.of_exec) hr
  have ⟨s, hs, hd⟩ := run_disciplined (by decide) (by decide) (by decide) h
  subst hs
  exact ⟨s, h, Except.ok.inj he, hd⟩

end Arena

end Zgmos.Kmem
