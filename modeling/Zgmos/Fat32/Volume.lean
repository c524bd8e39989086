import Zgmos.Fat32.Coherence
import Zgmos.Lib.Program

-- The functions that read the file allocation table with `fat32_bio_read`.

namespace Zgmos.Fat32

-- Each request is a call of `fat32_bio_read`. The buffer is used until the next request only.
abbrev Prog (fs : Fat32Fs) := Program Sidx (Sector fs) Fault

-- A call of `fat32_bio_read` together with the contents of the buffer.
def Bio.sector {fs : Fat32Fs} (b : Bio fs) (sidx : Sidx) : Except Fault (Sector fs × Bio fs) := do
  let (addr, b) ← b.read sidx
  return (b.buf.load addr _, b)

inductive ObjType
  | file
  | directory
  deriving DecidableEq

-- The names are strings at the beginning of their arrays.
structure Fat32Obj where
  cidx     : Cidx
  type     : ObjType
  longFn   : Memory Byte
  shortFn  : Memory Byte
  fileSize : BitVec 32

def chainEndFlag : Cidx :=
  0x0ffffff8

section

variable (fs : Fat32Fs)

def fat32Clu2sec (cidx : Cidx) : Sidx :=
  (cidx - 2) * .ofNat 32 fs.secPerCluster + fs.firstClusterSidx

-- The sector of the table with the word of a cluster.
def tableSidx (index : Cidx) : Sidx :=
  .ofNat 32 <| index.toNat / fs.chainPerSector + fs.reservedSecCnt

end

variable {fs : Fat32Fs}

def byteAt (dat : Sector fs) (k : Nat) : Byte :=
  if h : k < fs.bytePerSector then dat ⟨k, h⟩ else 0

def wordAt (dat : Sector fs) (k : Nat) : BitVec 32 :=
  byteAt dat (k + 3) ++ byteAt dat (k + 2) ++ byteAt dat (k + 1) ++ byteAt dat k

-- The word lies inside of the sector.
def fat32GetChain (index : Cidx) : Prog fs Cidx :=
  if fs.chainPerSector = 0 then .fail .divByZero else do
    let table ← .get <| tableSidx fs index
    return wordAt table <| 4 * (index.toNat % fs.chainPerSector)

-- The clusters of a chain.
inductive Chain (v : Volume fs) : Cidx → List Cidx → Prop
  | nil {cidx} : chainEndFlag ≤ cidx → Chain v cidx []
  | cons {cidx cidx' cs} : cidx < chainEndFlag → (fat32GetChain cidx).eval v = .ok cidx' →
    Chain v cidx' cs → Chain v cidx (cidx :: cs)

-- The sectors of a cluster.
def clusterSidx (fs : Fat32Fs) (cidx : Cidx) (n : Nat) : Sidx :=
  fat32Clu2sec fs cidx + .ofNat 32 n

def clusterBytes (v : Volume fs) (cidx : Cidx) : List Byte :=
  (List.range fs.secPerCluster).flatMap fun n => .ofFn <| v <| clusterSidx fs cidx n

def chainBytes (v : Volume fs) (cs : List Cidx) : List Byte :=
  cs.flatMap <| clusterBytes v

variable {v v' : Volume fs} {cidx : Cidx} {cs : List Cidx} {α : Type}

theorem Bio.Coherent.sector {b : Bio fs} (w : b.Coherent v) (hn : 0 < fs.bufNum) (sidx : Sidx) :
    ∃ b', b.sector sidx = .ok (v sidx, b') ∧ b'.Coherent v := by
  have ⟨i, b', hb, wb, hi⟩ := w.access hn sidx
  exact ⟨b', by rw [Bio.sector, Bio.read, hb, ← hi.2, ← wb.slot hi.1]; rfl, wb⟩

-- A program sees the volume and not the buffers.
theorem Bio.Coherent.run_prog {b : Bio fs} (w : b.Coherent v) (hn : 0 < fs.bufNum) (p : Prog fs α) :
    ∃ b', p.run Bio.sector b = (p.eval v).map (·, b') ∧ b'.Coherent v :=
  Program.run_eq_eval (fun _ sidx wb => wb.sector hn sidx) p w

theorem exists_coherent (v : Volume fs) : ∃ b : Bio fs, b.Coherent v := by
  have := Bio.init_coherent (fun _ => 0) ⟨id, id⟩ fun sidx => v (sidx - fs.dsidx)
  simp only [add_sub_cancel_right] at this
  exact ⟨_, this⟩

namespace Bio.Coherent

variable {b b' : Bio fs} {p : Prog fs α} {a : α} (w : b.Coherent v) (hn : 0 < fs.bufNum)

include w hn

theorem run_of_eval (h : p.eval v = .ok a) : ∃ b', p.run Bio.sector b = .ok (a, b') ∧ b'.Coherent v := by
  have ⟨b', he, w'⟩ := w.run_prog hn p
  exact ⟨b', by rw [he, h]; rfl, w'⟩

theorem eval_of_run (h : p.run Bio.sector b = .ok (a, b')) : p.eval v = .ok a := by
  have ⟨b₁, he, _⟩ := w.run_prog hn p
  rw [h] at he
  cases hv : p.eval v
  case error => rw [hv] at he; nomatch he
  case ok    => rw [hv] at he; cases he; rfl

end Bio.Coherent

theorem fat32GetChain_eval (h : fs.chainPerSector ≠ 0) : (fat32GetChain cidx).eval v =
    .ok (wordAt (v <| tableSidx fs cidx) <| 4 * (cidx.toNat % fs.chainPerSector)) := by
  unfold fat32GetChain
  rw [if_neg h]
  rfl

namespace Chain

theorem chainPerSector_ne_zero (h : Chain v cidx cs) (hn : cs ≠ []) : fs.chainPerSector ≠ 0 := by
  cases h
  case nil        => exact absurd rfl hn
  case cons h =>
    intro hc
    unfold fat32GetChain at h
    rw [if_pos hc] at h
    nomatch h

-- The chain depends on the sectors of the table only.
theorem congr (h : Chain v cidx cs) (he : ∀ c ∈ cs, v' (tableSidx fs c) = v (tableSidx fs c)) :
    Chain v' cidx cs := by
  induction h
  case nil h         => exact .nil h
  case cons c _ cs h e r hi =>
    have hc := (Chain.cons h e r).chainPerSector_ne_zero (by simp)
    refine .cons h ?_ <| hi fun c hm => he c <| by simp [hm]
    rwa [fat32GetChain_eval hc, he c <| by simp, ← fat32GetChain_eval hc]

end Chain
end Zgmos.Fat32
