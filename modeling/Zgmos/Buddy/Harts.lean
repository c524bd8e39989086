import Zgmos.Buddy.Runs
import Zgmos.Cpu.Sections

-- Harts which allocate and release blocks at the same time.

namespace Zgmos.Buddy

open Cpu (Machine Lock Meet Meets hartNum sectionActions)
open Mutex (Section Serial sectionsOf runBody)

-- A hart releases one of the blocks that it has been given.
inductive Call
  | alloc (pow : Nat)
  | free (k : Nat)

-- The blocks of a hart, and the buddy system unless a function has gone wrong. Behind that nothing is said.
abbrev Shared :=
  List Allocation × Except Fault BuddySystem

def granted (blocks : List Allocation) (pow : Nat) : Except Fault (Nat × BuddySystem) → Shared
  | .error e     => (blocks, .error e)
  | .ok (pa, bs) => (⟨pa, pow⟩ :: blocks, .ok bs)

def released (blocks : List Allocation) (k : Nat) : Except Fault (Unit × BuddySystem) → Shared
  | .error e    => (blocks, .error e)
  | .ok (_, bs) => (blocks.eraseIdx k, .ok bs)

-- What a call does while it holds the lock.
def Call.perform (call : Call) (s : Shared) : Shared :=
  match s.2 with
  | .error _ => s
  | .ok bs   =>
    match call with
    | .alloc pow => granted s.1 pow <| (buddyAlloc pow).run bs
    | .free k    => s.1[k]?.elim s fun b => released s.1 k <| (buddyFree b.pa).run bs

-- There is a block for the request.
def Call.Granted (s : Except Fault BuddySystem) : Call → Prop
  | alloc pow => ∃ bs, s = .ok bs ∧ bs.Satisfiable pow
  | free _    => True

-- The accesses to the buddy system of which the functions consist.
structure Split where
  body : Call → List (List Allocation → Except Fault BuddySystem → Shared)
  eq   : ∀ call s, runBody (body call) s = call.perform s

def Split.section (p : Split) (lk : Lock) (call : Call) : Section Lock (List Allocation) (Except Fault BuddySystem) :=
  ⟨lk, p.body call⟩

-- What the section of a call wants of the buddy system.
def Split.Granted (p : Split) (lk : Lock) (c : Section Lock (List Allocation) (Except Fault BuddySystem))
    (s : Except Fault BuddySystem) : Prop :=
  ∃ call, c = p.section lk call ∧ call.Granted s

-- The blocks have no byte in common.
def Allocation.Apart (b b' : Allocation) : Prop :=
  b.pa + 2 ^ b.pow * pageSize ≤ b'.pa ∨ b'.pa + 2 ^ b'.pow * pageSize ≤ b.pa

variable {w : World} {P : Pool} {live : List Allocation} {b b' : Allocation} {bs : BuddySystem} {call : Call}
  {s : Shared} {t : Serial (Fin hartNum) Lock (List Allocation) (Except Fault BuddySystem)} {lk : Lock} {i : Fin hartNum}

theorem Allocation.Apart.symm (h : b.Apart b') : b'.Apart b :=
  Or.symm h

namespace World.Inv

theorem perm (v : w.Inv P) (h : w.live.Perm live) : Inv { w with live } P where
  layout := v.layout
  region := v.region
  held   := v.held.trans <| Multiset.coe_eq_coe.mpr <| h.map _
  addr h' := v.addr <| h.mem_iff.mpr h'
  used h' := v.used <| h.mem_iff.mpr h'

theorem pa_eq (v : w.Inv P) (hb : b ∈ w.live) :
    b.pa = w.bs.managedStart + w.bs.buddyAuxAddr2index b.pa * pageSize := by
  have ⟨_, i, ha, hi, _, _, hle⟩ := v.exclusive.block hb
  have hlt : w.bs.buddyAuxIndex2addr i = w.bs.managedStart + i * pageSize := by
    have hpos : 0 < 2 ^ b.pow := by positivity
    have := Nat.mul_le_mul_right pageSize <| (Nat.le_add_right i (2 ^ b.pow)).trans hle
    have hb := v.region.bound
    exact Nat.mod_eq_of_lt <| by omega
  rw [hi, ha, hlt]

-- Live blocks have no byte in common.
theorem apart (v : w.Inv P) : w.live.Pairwise Allocation.Apart := by
  refine v.exclusive.live.imp_of_mem fun {b b'} hb hb' hx => ?_
  rw [Allocation.Apart, v.pa_eq hb, v.pa_eq hb', Nat.add_assoc, Nat.add_assoc, ← Nat.add_mul, ← Nat.add_mul]
  generalize hi : w.bs.buddyAuxAddr2index b.pa = i
  generalize hi' : w.bs.buddyAuxAddr2index b'.pa = i'
  have hlt := hx <| max i i'
  simp only [World.InBlock, hi, hi'] at hlt
  have hpos : 0 < 2 ^ b.pow := by positivity
  have hpos' : 0 < 2 ^ b'.pow := by positivity
  have h : i + 2 ^ b.pow ≤ i' ∨ i' + 2 ^ b'.pow ≤ i := by omega
  exact h.imp (fun h => Nat.add_le_add_left (Nat.mul_le_mul_right _ h) _) fun h =>
    Nat.add_le_add_left (Nat.mul_le_mul_right _ h) _

end World.Inv

-- The blocks of the harts are live, and nothing else is.
def Holds (s : Except Fault BuddySystem) (live : List Allocation) : Prop :=
  ∃ bs P, s = .ok bs ∧ World.Inv ⟨bs, live⟩ P

theorem World.run_of_alloc {w' : World} {pow : Nat} (h : w.alloc pow = .ok w') :
    ∃ pa bs, (buddyAlloc pow).run w.bs = .ok (pa, bs) ∧ w' = ⟨bs, ⟨pa, pow⟩ :: w.live⟩ := by
  rw [World.alloc] at h
  cases hr : (buddyAlloc pow).run w.bs
  case error =>
    rw [hr] at h
    cases h
  case ok r =>
    rw [hr] at h
    cases h
    exact ⟨r.1, r.2, rfl, rfl⟩

theorem World.run_of_free {w' : World} (h : w.free b = .ok w') :
    ∃ r bs, (buddyFree b.pa).run w.bs = .ok (r, bs) ∧ w' = ⟨bs, w.live.erase b⟩ := by
  rw [World.free] at h
  cases hr : (buddyFree b.pa).run w.bs
  case error =>
    rw [hr] at h
    cases h
  case ok r =>
    rw [hr] at h
    cases h
    exact ⟨r.1, r.2, rfl, rfl⟩

theorem erase_perm_eraseIdx {others : List Allocation} {k : Nat} (h : live[k]? = some b) :
    ((live ++ others).erase b).Perm (live.eraseIdx k ++ others) := by
  have ⟨hk, hb⟩ := List.getElem?_eq_some_iff.mp h
  have hm : b ∈ live ++ others := List.mem_append_left _ <| hb ▸ List.getElem_mem hk
  have hp := (hb ▸ List.getElem_cons_eraseIdx_perm hk).append_right others
  exact (List.perm_cons_erase hm |>.symm.trans hp.symm).cons_inv

-- A call keeps the blocks of the other harts.
theorem Holds.perform {others : List Allocation} (h : Holds s.2 (s.1 ++ others)) (hg : call.Granted s.2) :
    Holds (call.perform s).2 ((call.perform s).1 ++ others) := by
  obtain ⟨bs, P, hs, v⟩ := h
  cases call
  case alloc pow =>
    obtain ⟨bs', he, hsat⟩ := hg
    obtain rfl := Except.ok.inj <| hs.symm.trans he
    have hpow : pow < maxBlockPow := by
      obtain ⟨k, hle, hlt, _⟩ := hsat
      omega
    obtain ⟨w', Q, i, hw, g⟩ := v.step_alloc hpow hsat
    obtain ⟨pa, bs, hr, rfl⟩ := World.run_of_alloc hw
    simp only [Call.perform, hs, hr, granted]
    exact ⟨bs, _, rfl, g.inv⟩
  case free k =>
    cases hk : s.1[k]?
    case none =>
      simp only [Call.perform, hs, hk, Option.elim_none]
      exact ⟨bs, P, rfl, v⟩
    case some b =>
      have hb : b ∈ s.1 ++ others := List.mem_append_left _ <| List.mem_of_getElem? hk
      obtain ⟨w', P', hw, g⟩ := v.free hb
      obtain ⟨r, bs', hr, rfl⟩ := World.run_of_free hw
      have hp : Call.perform (.free k) s = s.1[k]?.elim s fun b => released s.1 k <| (buddyFree b.pa).run bs := by
        rw [Call.perform, hs]
      rw [hp, hk, Option.elim_some, hr]
      exact ⟨bs', P', rfl, g.inv.perm <| erase_perm_eraseIdx hk⟩

theorem Holds.perm {s : Except Fault BuddySystem} {live' : List Allocation} (h : Holds s live) (hp : live.Perm live') :
    Holds s live' := by
  obtain ⟨bs, P, hs, v⟩ := h
  exact ⟨bs, P, hs, v.perm hp⟩

section Harts

variable {p : Split} {es : List (Fin hartNum × Section Lock (List Allocation) (Except Fault BuddySystem))}
  {f : Fin hartNum → List Allocation}

-- The blocks of all harts.
def allBlocks (f : Fin hartNum → List Allocation) : List Allocation :=
  (List.finRange hartNum).flatMap f

def othersBlocks (f : Fin hartNum → List Allocation) (i : Fin hartNum) : List Allocation :=
  ((List.finRange hartNum).erase i).flatMap f

theorem allBlocks_perm (i : Fin hartNum) : (allBlocks f).Perm (f i ++ othersBlocks f i) := by
  have := (List.perm_cons_erase <| List.mem_finRange i).flatMap_right f
  rwa [List.flatMap_cons] at this

theorem othersBlocks_update (blocks : List Allocation) :
    othersBlocks (Function.update f i blocks) i = othersBlocks f i := by
  refine List.flatMap_congr fun j hj => ?_
  exact Function.update_of_ne ((List.nodup_finRange _).mem_erase_iff.mp hj).1 ..

theorem Holds.exec (h : Holds (t.data lk) (allBlocks t.reg)) (hg : call.Granted (t.data lk)) :
    Holds ((t.exec (i, p.section lk call)).data lk) (allBlocks (t.exec (i, p.section lk call)).reg) := by
  have hb : runBody (p.section lk call).body (t.reg i, t.data lk) = call.perform (t.reg i, t.data lk) := p.eq ..
  have hreg : (t.exec (i, p.section lk call)).reg =
      Function.update t.reg i (call.perform (t.reg i, t.data lk)).1 := by
    rw [← hb]
    rfl
  have hdata : (t.exec (i, p.section lk call)).data lk = (call.perform (t.reg i, t.data lk)).2 := by
    rw [← hb]
    exact Function.update_self ..
  have hperm := @allBlocks_perm (Function.update t.reg i (call.perform (t.reg i, t.data lk)).1) i
  rw [Function.update_self, othersBlocks_update] at hperm
  rw [hreg, hdata]
  exact (Holds.perform (s := (t.reg i, t.data lk)) (h.perm <| allBlocks_perm i) hg).perm hperm.symm

theorem Holds.execs (h : Holds (t.data lk) (allBlocks t.reg))
    (hm : Meet (p.Granted lk) t es) :
    Holds ((es.foldl Serial.exec t).data lk) (allBlocks (es.foldl Serial.exec t).reg) := by
  induction es generalizing t
  case nil => exact h
  case cons e es hi =>
    obtain ⟨call, hs, hg⟩ := hm [] e es rfl
    refine hi ?_ fun es₁ e' es₂ he => hm (e :: es₁) e' es₂ (by rw [he]; rfl)
    rw [hs] at hg
    have := h.exec (p := p) (i := e.1) hg
    rwa [← hs] at this

theorem Holds.apart {s : Except Fault BuddySystem} (h : Holds s (allBlocks f)) :
    (∀ i, (f i).Pairwise Allocation.Apart) ∧ ∀ i j, i ≠ j → ∀ b ∈ f i, ∀ b' ∈ f j, b.Apart b' := by
  obtain ⟨bs, P, _, v⟩ := h
  have hp (i : Fin hartNum) : (f i ++ othersBlocks f i).Pairwise Allocation.Apart :=
    ((allBlocks_perm i).pairwise_iff Allocation.Apart.symm).mp v.apart
  refine ⟨fun i => (List.pairwise_append.mp <| hp i).1, fun i j hij b hb b' hb' => ?_⟩
  refine (List.pairwise_append.mp <| hp i).2.2 b hb b' <| List.mem_flatMap.mpr ⟨j, ?_, hb'⟩
  exact (List.nodup_finRange _).mem_erase_iff.mpr ⟨hij.symm, List.mem_finRange j⟩

end Harts

section Runs

variable {p : Split} {m m' : Machine (List Allocation) (Except Fault BuddySystem)} {is : List (Fin hartNum)}
  {calls : Fin hartNum → List Call}

-- A hart is in none of the functions.
structure Outside (m : Machine (List Allocation) (Except Fault BuddySystem)) (i : Fin hartNum) : Prop where
  pc   : (m.cores i).pc = .ready
  held : (m.cores i).held = []

-- What is wanted of the harts.
structure HartsApart (lk : Lock) (m : Machine (List Allocation) (Except Fault BuddySystem)) : Prop where
  sound   : (m.locks lk).locked = 0 → ∃ bs, m.data lk = .ok bs
  panic   : ∀ i, (m.cores i).pc ≠ .panic
  within  : ∀ i, Outside m i → (m.cores i).reg.Pairwise Allocation.Apart
  between : ∀ i j, i ≠ j → Outside m i → Outside m j → ∀ b ∈ (m.cores i).reg, ∀ b' ∈ (m.cores j).reg, b.Apart b'

-- The harts that use the buddy system.
structure Users (p : Split) (lk : Lock) (calls : Fin hartNum → List Call)
    (m : Machine (List Allocation) (Except Fault BuddySystem)) : Prop extends m.Initial where
  todo : ∀ i, (m.cores i).todo = ((calls i).map (p.section lk)).flatMap sectionActions
  reg  : ∀ i, (m.cores i).reg = []

-- Harts that allocate and release blocks at the same time have no byte in common, whatever the order of their steps is,
-- as long as there is a block for each request when it gets the lock.
theorem run_apart {paStart paEnd : Nat} {buddies : Nat → BuddyBlock} (hl : paStart ≤ paEnd) (hu : paEnd < u64)
    (hs : pageSize ∣ paStart) (he : pageSize ∣ paEnd) (h : Users p lk calls m)
    (hd : (m.data lk).map (fun bs => ⟨bs, []⟩) = World.init paStart paEnd buddies)
    (hg : Meets (p.Granted lk) (fun i => (calls i).map (p.section lk)) m is) (r : m.Runs is m') :
    HartsApart lk m' := by
  have ⟨w, P, hw, v, _⟩ := init_inv (b := buddies) (buddyAuxDataInit_of_aligned hl hu hs he)
  have ⟨es, z, hm⟩ := h.toInitial.run_meets h.todo hg r
  have hstart : Holds (m.data lk) (allBlocks fun i => (m.cores i).reg) := by
    have hn : allBlocks (fun i => (m.cores i).reg) = [] := by simp [allBlocks, h.reg]
    rw [hn]
    rw [hw] at hd
    cases hb : m.data lk
    case error =>
      rw [hb] at hd
      cases hd
    case ok bs =>
      rw [hb] at hd
      cases hd
      exact ⟨bs, P, rfl, v⟩
  have hend := @Holds.execs ⟨m.data, fun i => (m.cores i).reg⟩ lk p es hstart hm
  have ⟨hwithin, hbetween⟩ := hend.apart
  have hreg (i : Fin hartNum) (o : Outside m' i) : _ = _ := z.reg i o.pc o.held
  refine ⟨fun hl => ?_, z.panic, fun i o => ?_, fun i j hij o o' => ?_⟩
  case refine_1 =>
    obtain ⟨bs, _, hs, _⟩ := hend
    exact ⟨bs, (z.data lk hl).trans hs⟩
  case refine_2 => exact hreg i o ▸ hwithin i
  case refine_3 => exact hreg i o ▸ hreg j o' ▸ hbetween i j hij

end Runs

-- Two harts allocate two pages each, and release one of them again.

def wholeCalls : Split where
  body call := [fun blocks bs => call.perform (blocks, bs)]
  eq _ _    := rfl

def twoHarts : Machine (List Allocation) (Except Fault BuddySystem) where
  locks _ := ⟨0, -1⟩
  data _  := fourPages.map World.bs
  cores i := {
    sstatus   := 2
    intDepth  := 0
    intEnable := 0
    pc        := .ready
    reg       := []
    past      := []
    todo      := ([.alloc 0, .alloc 0, .free i].map (wholeCalls.section 0)).flatMap sectionActions
  }

theorem twoHarts_users : Users wholeCalls 0 (fun i => [.alloc 0, .alloc 0, .free i]) twoHarts where
  locks _ := rfl
  pc _    := rfl
  depth _ := rfl
  past _  := rfl
  todo _  := rfl
  reg _   := rfl

-- Whether the hart has the lock for one of its two requests, and whether there is a page.

def entering (m : Machine (List Allocation) (Except Fault BuddySystem)) (i : Fin hartNum) : Bool :=
  match (m.cores i).pc with
  | .record _ => decide ((m.cores i).past.length ≤ 3)
  | _         => false

def hasPage (s : Except Fault BuddySystem) : Bool :=
  s.toOption.any fun bs => decide (bs.Satisfiable 0)

def granting (m : Machine (List Allocation) (Except Fault BuddySystem)) : Bool :=
  (List.finRange hartNum).all fun i => !entering m i || hasPage (m.data 0)

def grantingAlong : Machine (List Allocation) (Except Fault BuddySystem) → List (Fin hartNum) → Bool
  | m, []      => granting m
  | m, i :: is => granting m && grantingAlong (m.step i) is

theorem grantingAlong_run {m m' : Machine (List Allocation) (Except Fault BuddySystem)} {is is' : List (Fin hartNum)}
    (h : grantingAlong m (is ++ is')) (r : m.Runs is m') : granting m' := by
  induction is generalizing m
  case nil =>
    cases r
    cases is'
    case nil  => exact h
    case cons => exact (Bool.and_eq_true _ _ ▸ h).1
  case cons i is hi =>
    cases r
    case cons hs r =>
      subst hs
      exact hi (Bool.and_eq_true _ _ ▸ h).2 r

theorem twoHarts_meets {is : List (Fin hartNum)} (h : grantingAlong twoHarts is) :
    Meets (wholeCalls.Granted 0) (fun i => [.alloc 0, .alloc 0, .free i].map (wholeCalls.section 0)) twoHarts is := by
  intro is₁ is₂ m₁ i c he r e
  have hg := grantingAlong_run (he ▸ h) r
  obtain ⟨done, rest, hp, hpast⟩ := e.past
  have hroom (hl : (m₁.cores i).past.length ≤ 3) : Call.Granted (m₁.data 0) (.alloc 0) := by
    have hi := List.all_eq_true.mp hg i <| List.mem_finRange i
    have hin : entering m₁ i = true := by
      rw [entering, e.pc]
      exact decide_eq_true hl
    rw [hin, hasPage] at hi
    cases hd : m₁.data 0
    case error => simp [hd, Except.toOption] at hi
    case ok bs => exact ⟨bs, rfl, by simpa [hd, Except.toOption] using hi⟩
  match done, hp, hpast with
  | [], hp, hpast =>
    cases hp
    exact ⟨.alloc 0, rfl, hroom <| by simp [hpast]⟩
  | [_], hp, hpast =>
    cases hp
    exact ⟨.alloc 0, rfl, hroom <| by simp [hpast, sectionActions, Split.section, wholeCalls]⟩
  | [_, _], hp, _ =>
    cases hp
    exact ⟨.free i, rfl, trivial⟩
  | _ :: _ :: _ :: _, hp, _ => simp at hp

-- Both harts want the lock from the beginning.
theorem twoHarts_apart :
    HartsApart 0 <| (List.replicate 40 <| List.finRange hartNum).flatten.foldl Machine.step twoHarts := by
  have hd : (twoHarts.data 0).map (fun bs => ⟨bs, []⟩) = fourPages := by
    simp only [twoHarts, fourPages, World.init]
    cases buddyInit.run (buddyAuxDataInit 0x80000000 0x80005000 fun _ => noBlock) <;> rfl
  exact run_apart (by decide) (by decide +kernel) (by decide +kernel) (by decide +kernel) twoHarts_users hd
    (twoHarts_meets <| by decide +kernel) <| Machine.runs_foldl ..

end Zgmos.Buddy
