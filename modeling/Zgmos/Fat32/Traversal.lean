import Zgmos.Fat32.Listing
import Zgmos.Lib.Except

-- The search for free slots, and the loop over the clusters of a directory with its results.

namespace Zgmos.Fat32

structure DirEntryPos where
  entryCidx   : Cidx
  entryOffset : Nat

-- The variables `last_avail`, `avail_entry_cnt` and the other two.
structure Avail where
  last : Bool
  cnt  : BitVec 32
  pos  : DirEntryPos

variable {fs : Fat32Fs}

-- The innermost loop over `n` slots. The offset of the sector is counted in bytes.
def searchSector (dat : Sector fs) (cidx : Cidx) (num : BitVec 32) (sidxOffset : Nat) :
    (n i : Nat) → Avail → Avail ⊕ DirEntryPos
  | 0,     _, st => .inl st
  | n + 1, i, st =>
    if (slotAt dat i).isFree then
      let st := if st.last then { st with cnt := st.cnt + 1 } else
        { st with cnt := 1, pos := { entryCidx := cidx, entryOffset := (sidxOffset * fs.bytePerSector + i) / 32 } }
      if st.cnt = num then .inr st.pos else searchSector dat cidx num sidxOffset n (i + 32) { st with last := true }
    else
      searchSector dat cidx num sidxOffset n (i + 32) { st with last := false }

def searchSectors (cidx : Cidx) (num : BitVec 32) : (n sidxOffset : Nat) → Avail → Prog fs (Avail ⊕ DirEntryPos)
  | 0,     _,          st => return .inl st
  | n + 1, sidxOffset, st => do
    let dat ← .get <| clusterSidx fs cidx sidxOffset
    match searchSector dat cidx num sidxOffset ((fs.bytePerSector + 31) / 32) 0 st with
    | .inl st  => searchSectors cidx num n (sidxOffset + 1) st
    | .inr pos => return .inr pos

def searchClusters (num : BitVec 32) : (fuel : Nat) → Cidx → Avail → Prog fs (Option DirEntryPos)
  | 0,        _,    _  => .fail .panic
  | fuel + 1, cidx, st =>
    if cidx < chainEndFlag then do
      match ← searchSectors cidx num fs.secPerCluster 0 st with
      | .inl st  => searchClusters num fuel (← fat32GetChain cidx) st
      | .inr pos => return some pos
    else
      return none

def fat32SearchInDirEntry (fuel : Nat) (dir : Fat32Obj) (num : BitVec 32) : Prog fs (Option DirEntryPos) :=
  searchClusters num fuel dir.cidx { last := false, cnt := 0, pos := { entryCidx := 0, entryOffset := 0 } }

variable {v : Volume fs} {cidx cidx' : Cidx} {cs : List Cidx} {obj : Fat32Obj} {st : Fns} {e : Slot}
  {n k fuel sidxOffset byteOffset : Nat}

theorem eval_of_evalIn {α : Type} {p : Prog fs α} {a : α} (h : p.evalIn (fun _ => True) v = some a) :
    p.eval v = .ok a :=
  (Program.evalIn_eq_some_iff.mp h).1

section Directory

variable {p : Nat} (l : Aligned fs)

include l

theorem iterSectors_eval (hp : p < slotsPerCluster fs) :
    (iterSectors cidx obj (fs.secPerCluster - (place fs p).1) (place fs p).1 (place fs p).2 st).eval v =
      (scan fs obj p st ((clusterSlots v cidx).drop p)).map (placed fs) := by
  have he := @iterSectors_evalIn fs v cidx obj st (p / slotsPerSector fs)
    (fs.secPerCluster - p / slotsPerSector fs) _ (fun _ => True) l.slot (place_lt hp).2 fun _ _ _ => trivial
  rw [Nat.div_add_mod', Program.evalIn_true] at he
  rw [clusterSlots_drop hp]
  simp only [place]
  cases hr : (iterSectors cidx obj (fs.secPerCluster - p / slotsPerSector fs) (p / slotsPerSector fs)
      (32 * (p % slotsPerSector fs)) st).eval v
  all_goals
    cases hs : scan fs obj p st (((List.range' (p / slotsPerSector fs) (fs.secPerCluster - p / slotsPerSector fs)).flatMap
      fun k => sectorSlots <| v <| clusterSidx fs cidx k).drop (p % slotsPerSector fs))
    all_goals rw [hr, hs] at he
  case error.error => rw [iterSectors_error hr, scan_error hs]; rfl
  case error.ok    => cases he
  case ok.error    => cases he
  case ok.ok       => exact congrArg _ <| Option.some.inj he

omit l in
theorem iterClusters_error {e : Fault} (hlt : cidx < chainEndFlag)
    (h : (iterSectors cidx obj (fs.secPerCluster - sidxOffset) sidxOffset byteOffset st).eval v = .error e) :
    (iterClusters obj (n + 1) cidx sidxOffset byteOffset st).eval v = .error e := by
  rw [iterClusters, if_pos hlt, Program.eval_bind, h]
  rfl

omit l in
theorem iterClusters_inl {st' : Fns} (hlt : cidx < chainEndFlag)
    (h : (iterSectors cidx obj (fs.secPerCluster - sidxOffset) sidxOffset byteOffset st).eval v = .ok (.inl st')) :
    (iterClusters obj (n + 1) cidx sidxOffset byteOffset st).eval v =
      (fat32GetChain cidx).eval v >>= fun cidx' => (iterClusters obj n cidx' 0 0 st').eval v := by
  rw [iterClusters, if_pos hlt, Program.eval_bind_ok h]
  exact Program.eval_bind ..

omit l in
theorem iterClusters_inr {obj' : Fat32Obj} {i : Nat} (hlt : cidx < chainEndFlag)
    (h : (iterSectors cidx obj (fs.secPerCluster - sidxOffset) sidxOffset byteOffset st).eval v =
      .ok (.inr ((k, i), obj'))) :
    (iterClusters obj (n + 1) cidx sidxOffset byteOffset st).eval v =
      (iterAdvance cidx k i obj'.type).eval v >>= fun iter => .ok (some (iter, obj')) := by
  rw [iterClusters, if_pos hlt, Program.eval_bind_ok h]
  exact Program.eval_bind ..

end Directory

end Zgmos.Fat32
