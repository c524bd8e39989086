import Zgmos.Process.Headers

-- The files which the loader survives.

namespace Zgmos.Process

open Pte

namespace Image

variable (image : Image)

-- The file as a memory.
def bytes (a : Word) : Byte :=
  image.content a.toNat

def header : Ehdr :=
  ehdrAt image.bytes 0

-- The program header with the given index in a table.
def phdr (offset : Word) (j : Nat) : Phdr :=
  phdrAt image.bytes (offset + .ofNat 64 (phdrSize * j))

-- The number of the next `n` program headers that are read. They are read in groups, and a group is read if the file
-- contains all of it.
def reached (offset : Word) (n : Nat) : Nat :=
  let rest := image.size.toNat - offset.toNat
  if phdrSize * n ≤ rest then n else onceLoad * (rest / (phdrSize * onceLoad))

def phdrsFrom (offset : Word) (n : Nat) : List Phdr :=
  (List.range <| image.reached offset n).map <| image.phdr offset

end Image

variable {Obj Buffers : Type} {F : Space} {p : Word} {s₀ : TaskState} {n m k fuel batches phcnt phnum : Nat} {image : Image}
  {data data' : Word → Byte} {phdr : Phdr} {es es' : List Entry} {visits : List Visit} {ok : Bool}
  {σ σ' : LoadState Obj Buffers} {loader : Loader Buffers} {own : Word → Prop} {a : BitVec 39} {addr addr' offset buf : Word}

section Decoding

theorem member_congr {off len : Nat} (h : ∀ k < off + len, data (addr + .ofNat 64 k) = data' (addr' + .ofNat 64 k)) :
    member data addr off len = member data' addr' off len := by
  have he : (List.range len).map (fun k => (data (addr + .ofNat 64 (off + k))).toNat) =
      (List.range len).map fun k => (data' (addr' + .ofNat 64 (off + k))).toNat := by
    refine List.map_congr_left fun k hk => ?_
    rw [h _ <| Nat.add_lt_add_left (List.mem_range.mp hk) _]
  rw [member, he]
  rfl

theorem phdrAt_congr (h : ∀ k < phdrSize, data (addr + .ofNat 64 k) = data' (addr' + .ofNat 64 k)) :
    phdrAt data addr = phdrAt data' addr' := by
  have hm (off len : Nat) (hle : off + len ≤ phdrSize) : member data addr off len = member data' addr' off len :=
    member_congr fun k hk => h k <| hk.trans_le hle
  simp only [phdrAt, hm 0 4 (by decide), hm 4 4 (by decide), hm 8 8 (by decide), hm 16 8 (by decide), hm 32 8 (by decide),
    hm 40 8 (by decide), hm 48 8 (by decide)]

theorem ehdrAt_congr (h : ∀ k < ehdrSize, data (addr + .ofNat 64 k) = data' (addr' + .ofNat 64 k)) :
    ehdrAt data addr = ehdrAt data' addr' := by
  have hm (off len : Nat) (hle : off + len ≤ ehdrSize) : member data addr off len = member data' addr' off len :=
    member_congr fun k hk => h k <| hk.trans_le hle
  have hi : (List.range 7).map (fun k => data (addr + .ofNat 64 k)) =
      (List.range 7).map fun k => data' (addr' + .ofNat 64 k) :=
    List.map_congr_left fun k hk => h k <| (List.mem_range.mp hk).trans <| by decide
  simp only [ehdrAt, hi, hm 16 2 (by decide), hm 18 2 (by decide), hm 20 4 (by decide), hm 24 8 (by decide),
    hm 32 8 (by decide), hm 52 2 (by decide), hm 54 2 (by decide), hm 56 2 (by decide)]

-- What has been read are the bytes of the file.
theorem readInto_bytes (h : offset.toNat + n ≤ image.size.toNat) (hk : k < n) :
    image.readInto offset buf (.ofNat 64 n) data (buf + .ofNat 64 k) = image.bytes (offset + .ofNat 64 k) := by
  have hs := image.size.isLt
  have hn : (BitVec.ofNat 64 n).toNat = n := Fs.ofNat_toNat (by omega)
  have hk' : (BitVec.ofNat 64 k).toNat = k := Fs.ofNat_toNat (by omega)
  have hz : BitVec.ofNat 64 n ≠ 0 := fun hc => by
    have : n = 0 := by simpa [hn] using congrArg BitVec.toNat hc
    omega
  have he : buf + .ofNat 64 k - buf = .ofNat 64 k := by rw [BitVec.add_comm, BitVec.add_sub_cancel]
  rw [readInto_eq <| (Phdr.delivered_eq_iff hz).mpr <| hn.symm ▸ h, he, if_pos (by rw [BitVec.lt_def, hn, hk']; exact hk),
    Image.bytes, BitVec.toNat_add, hk', Nat.mod_eq_of_lt (by omega)]

end Decoding

section Batch

-- The next group of headers.

theorem reached_of_le (h : offset.toNat + phdrSize * min n onceLoad ≤ image.size.toNat) : image.reached offset n =
    min n onceLoad + image.reached (offset + .ofNat 64 (phdrSize * min n onceLoad)) (n - min n onceLoad) := by
  have hs := image.size.isLt
  have ho : (offset + .ofNat 64 (phdrSize * min n onceLoad)).toNat = offset.toNat + phdrSize * min n onceLoad := by
    rw [BitVec.toNat_add, Fs.ofNat_toNat (by omega), Nat.mod_eq_of_lt (by omega)]
  rw [Image.reached, Image.reached, ho]
  split_ifs
  all_goals
    simp only [phdrSize, onceLoad, pageSize, Nat.reduceDiv] at *
    omega

theorem phdrsFrom_of_le (h : offset.toNat + phdrSize * min n onceLoad ≤ image.size.toNat) :
    image.phdrsFrom offset n = (List.range (min n onceLoad)).map (image.phdr offset) ++
      image.phdrsFrom (offset + .ofNat 64 (phdrSize * min n onceLoad)) (n - min n onceLoad) := by
  rw [Image.phdrsFrom, reached_of_le h, List.range_add, List.map_append, List.map_map, Image.phdrsFrom]
  congr 1
  refine List.map_congr_left fun j _ => ?_
  rw [Function.comp_apply, Image.phdr, Image.phdr, Nat.mul_add, BitVec.ofNat_add, BitVec.add_assoc]

theorem reached_of_lt (hn : 0 < n) (h : image.size.toNat < offset.toNat + phdrSize * min n onceLoad) :
    image.reached offset n = 0 := by
  rw [Image.reached]
  split_ifs
  all_goals
    simp only [phdrSize, onceLoad, pageSize, Nat.reduceDiv] at *
    omega

theorem phdrsFrom_of_lt (hn : 0 < n) (h : image.size.toNat < offset.toNat + phdrSize * min n onceLoad) :
    image.phdrsFrom offset n = [] := by
  rw [Image.phdrsFrom, reached_of_lt hn h]
  rfl

theorem phdrs_read (h : offset.toNat + phdrSize * n ≤ image.size.toNat) (hm : ∀ k < phdrSize * n,
      data' (buf + .ofNat 64 k) = image.readInto offset buf (.ofNat 64 (phdrSize * n)) data (buf + .ofNat 64 k)) :
    (List.range n).map (fun i => phdrAt data' (buf + .ofNat 64 (phdrSize * i))) =
      (List.range n).map (image.phdr offset) := by
  refine List.map_congr_left fun i hi => phdrAt_congr fun k hk => ?_
  have hi := List.mem_range.mp hi
  have hk : phdrSize * i + k < phdrSize * n := by
    simp only [phdrSize] at hk ⊢
    omega
  rw [BitVec.add_assoc, BitVec.add_assoc, ← BitVec.ofNat_add, hm _ hk]
  exact readInto_bytes h hk

variable {kernel : Fs.Kernel Obj Buffers} {len : Word}

theorem Ready.outside_buffer (y : Ready loader own F p s₀ buf image data es σ) (hlen : len.toNat ≤ pageSize) :
    Outside own len.toNat buf :=
  fun k hk => y.buffer.2.2 k <| hk.trans_le hlen

theorem Ready.kept_read (y : Ready loader own F p s₀ buf image data es σ) (hlen : len.toNat ≤ pageSize)
    (hm : ∀ a, ¬own a → kernel.mem a = image.readInto offset buf len σ.kernel.mem a) : Kept own buf es data kernel.mem := by
  intro a ho hn
  have h₀ : buf + 0 = buf := BitVec.add_zero buf
  have hne : align4K a ≠ buf := fun hc => hn <| hc ▸ List.mem_cons_self
  refine (hm a ho).trans <| (readInto_of_not _ _ _ ?_).trans <| y.kept a ho hn
  exact h₀ ▸ part_of_ne y.buffer.1 (by simpa using hlen) hne

-- A read into the page for the headers.
theorem Ready.read (y : Ready loader own F p s₀ buf image data es σ) (hlen : len.toNat ≤ pageSize)
    (hv : Serving loader own image kernel) (hu : kernel.locked = false)
    (hm : ∀ a, ¬own a → kernel.mem a = image.readInto offset buf len σ.kernel.mem a) :
    Ready loader own F p s₀ buf image data es { σ with kernel } := by
  refine ⟨y.loaded, hv, hu, y.buffer, y.outside, fun e he k hk => ?_, y.kept_read hlen hm⟩
  have h₀ : buf + 0 = buf := BitVec.add_zero buf
  have hne : align4K (e.page.pa + .ofNat 64 k) ≠ buf := fun hc => by
    rw [align4K_add (y.loaded.entries e he).2 hk] at hc
    exact y.loaded.pa_new he <| hc ▸ y.buffer.2.1
  refine (hm _ <| y.outside e he k hk).trans <| (readInto_of_not _ _ _ ?_).trans <| y.filled e he k hk
  exact h₀ ▸ part_of_ne y.buffer.1 (by simpa using hlen) hne

theorem phdrsFrom_zero : image.phdrsFrom offset 0 = [] ∧ image.reached offset 0 = 0 := by
  have h : image.reached offset 0 = 0 := by simp [Image.reached]
  rw [Image.phdrsFrom, h]
  exact ⟨rfl, rfl⟩

end Batch

section Loop

variable (hE : Enough loader.alloc own s₀.used (min m (2 ^ 27))) (hF : Paged F) (hn : F a ≠ none)
  (y : Ready loader own F p s₀ buf image data es σ)

include y

variable (fuel batches offset) in
-- A group of headers is read, or the loader stops.
theorem Ready.loadBatches_succ (hr : phcnt + n = phnum) (hn : 0 < n) :
    ∃ σ₁, σ₁.state = σ.state ∧ Kept own buf es data σ₁.kernel.mem ∧
      (image.size.toNat < offset.toNat + phdrSize * min n onceLoad →
        (loadBatches loader buf phnum fuel (batches + 1) offset phcnt).run σ = (.ok ([], false), σ₁)) ∧
      (offset.toNat + phdrSize * min n onceLoad ≤ image.size.toNat → Ready loader own F p s₀ buf image data es σ₁ ∧
        (loadBatches loader buf phnum fuel (batches + 1) offset phcnt).run σ = (do
          let (visits, ok) ← loadHeaders loader fuel <| (List.range (min n onceLoad)).map (image.phdr offset)
          if ok then
            let (visits', ok) ← loadBatches loader buf phnum fuel batches
              (offset + .ofNat 64 (phdrSize * min n onceLoad)) (phcnt + min n onceLoad)
            return (visits ++ visits', ok)
          else
            return (visits, false) : LoadM Obj Buffers (List Visit × Bool)).run σ₁) := by
  have hnum : phnum - phcnt = n := by omega
  have hle : phdrSize * min n onceLoad ≤ pageSize := by
    simp only [phdrSize, onceLoad, pageSize, Nat.reduceDiv]
    omega
  have hpos : 0 < phdrSize * min n onceLoad := by
    simp only [phdrSize, onceLoad, pageSize, Nat.reduceDiv]
    omega
  have ht : (BitVec.ofNat 64 (phdrSize * min n onceLoad)).toNat = phdrSize * min n onceLoad :=
    Fs.ofNat_toNat <| hle.trans_lt <| by decide
  have hz : BitVec.ofNat 64 (phdrSize * min n onceLoad) ≠ 0 := fun hc => by
    have := congrArg BitVec.toNat hc
    rw [ht] at this
    exact hpos.ne' <| this.trans BitVec.toNat_zero
  have hd := ht ▸ @Phdr.delivered_eq_iff image offset _ hz
  have hlen := ht.symm ▸ hle
  obtain ⟨kernel, hv, hserving, hlocked, hmem⟩ :
      ∃ kernel, (vfsRead loader offset buf (.ofNat 64 (phdrSize * min n onceLoad))).run σ = _ ∧ _ :=
    vfsRead_run y.serving y.unlocked <| y.outside_buffer hlen
  refine ⟨{ σ with kernel }, rfl, y.kept_read hlen hmem, fun h => ?_, fun h => ⟨?_, ?_⟩⟩
  case refine_1 =>
    rw [loadBatches, if_neg (by omega), hnum]
    simp only
    rw [ExceptT.run_bind_ok hv, if_pos <| hd.not.mpr <| by omega]
    rfl
  case refine_2 =>
    have hu : kernel.locked = false := hlocked.trans <| decide_eq_false <| Phdr.lt_of_delivered hz <| hd.mpr h
    exact y.read hlen hserving hu hmem
  case refine_3 =>
    rw [loadBatches, if_neg (by omega), hnum]
    simp only
    rw [ExceptT.run_bind_ok hv, if_neg <| not_not.mpr <| hd.mpr h, hd.mpr h]
    refine (ExceptT.run_bind_ok load_get_run).trans ?_
    simp only
    rw [phdrs_read h fun k hk => hmem _ <| y.outside_buffer hlen k <| ht.symm ▸ hk]

include hE hF hn

theorem Ready.loadBatches_walked (hm : es.length + pageNeed (image.phdrsFrom offset n) ≤ m ∨ 2 ^ 27 ≤ m)
    (hr : phcnt + n = phnum)
    (h : (loadBatches loader buf phnum fuel batches offset phcnt).run σ = (.ok (visits, ok), σ'))
    (hx : ∀ v ∈ visits, v.Exact) :
    ∃ es', Walked loader own F p s₀ buf image data (image.phdrsFrom offset n) (image.reached offset n = n) es visits ok es'
      σ' := by
  induction batches generalizing es σ offset n phcnt visits
  case zero => cases h
  case succ batches hi =>
    by_cases hz : n = 0
    case pos =>
      subst hz
      have ⟨hp, hr₀⟩ := @phdrsFrom_zero image offset
      rw [loadBatches, if_pos (by omega)] at h
      cases h
      rw [hp, hr₀]
      exact ⟨es, rfl, fun _ hm => absurd hm List.not_mem_nil, rfl, (List.append_nil _).symm, y.loaded, y.kept, fun _ => y⟩
    case neg =>
      have hpos : 0 < n := Nat.pos_of_ne_zero hz
      have ⟨σ₁, hs, hk, hlt, hle⟩ := y.loadBatches_succ fuel batches offset hr hpos
      by_cases hcut : image.size.toNat < offset.toNat + phdrSize * min n onceLoad
      case pos =>
        cases h.symm.trans (hlt hcut)
        rw [phdrsFrom_of_lt hpos hcut, reached_of_lt hpos hcut]
        have hz : decide (0 = n) = false := decide_eq_false <| Ne.symm hz
        refine ⟨es, rfl, fun _ hm => absurd hm List.not_mem_nil, hz.symm, (List.append_nil _).symm, ?_, hk,
          fun hc => by cases hc⟩
        rw [hs]
        exact y.loaded
      case neg =>
        have hcut := Nat.le_of_not_lt hcut
        have ⟨y₁, he⟩ := hle hcut
        have hr' : phcnt + min n onceLoad + (n - min n onceLoad) = phnum := by omega
        rw [he] at h
        rw [phdrsFrom_of_le hcut, pageNeed_append] at hm
        rw [phdrsFrom_of_le hcut]
        have hwhole : (image.reached offset n = n) ↔
            image.reached (offset + .ofNat 64 (phdrSize * min n onceLoad)) (n - min n onceLoad) =
            n - min n onceLoad := by
          rw [reached_of_le hcut]
          omega
        have ⟨⟨visits₁, ok₁⟩, σ₂, h₁, h⟩ := ExceptT.run_bind_eq_ok.mp h
        cases ok₁
        case false =>
          cases h
          have ⟨es', w⟩ := y₁.loadHeaders_walked hE hF hn (by omega) h₁ hx
          exact ⟨es', w.stop⟩
        case true =>
          have ⟨⟨visits₂, ok₂⟩, _, h₂, h⟩ := ExceptT.run_bind_eq_ok.mp h
          cases h
          have ⟨hx₁, hx₂⟩ := List.forall_mem_append.mp hx
          have ⟨es₁, w⟩ := y₁.loadHeaders_walked hE hF hn (by omega) h₁ hx₁
          have ⟨es', w'⟩ := hi (w.ready rfl) (by have := w.length_le; omega) hr' h₂ hx₂
          rw [decide_eq_decide.mpr hwhole]
          exact ⟨es', w.append w'⟩

theorem Ready.loadBatches_run (hm : es.length + pageNeed (image.phdrsFrom offset n) ≤ m ∨ 2 ^ 27 ≤ m)
    (hr : phcnt + n = phnum)
    (hfuel : 2 ^ 27 ≤ fuel) (hbatches : n < batches)
    (hs : ∀ phdr ∈ loadedSegments image (image.phdrsFrom offset n), phdr.Sound image)
    (hap : Apart F (es.map (·.page.va) ++ (placesOf image (image.phdrsFrom offset n)).map placePage)) :
    ∃ visits ok σ', (loadBatches loader buf phnum fuel batches offset phcnt).run σ = (.ok (visits, ok), σ') ∧
      ∀ v ∈ visits, v.Exact := by
  have hnil : ∀ v ∈ ([] : List Visit), v.Exact := fun _ hv => absurd hv List.not_mem_nil
  induction batches generalizing es σ offset n phcnt
  case zero => exact absurd hbatches n.not_lt_zero
  case succ batches hi =>
    by_cases hz : n = 0
    case pos =>
      subst hz
      rw [loadBatches, if_pos (by omega)]
      exact ⟨_, _, _, rfl, hnil⟩
    case neg =>
      have hpos : 0 < n := Nat.pos_of_ne_zero hz
      obtain ⟨σ₁, _, _, hlt, hle⟩ := y.loadBatches_succ fuel batches offset hr hpos
      by_cases hcut : image.size.toNat < offset.toNat + phdrSize * min n onceLoad
      case pos => exact ⟨_, _, _, hlt hcut, hnil⟩
      case neg =>
        have hcut := Nat.le_of_not_lt hcut
        obtain ⟨y₁, he⟩ := hle hcut
        have hr' : phcnt + min n onceLoad + (n - min n onceLoad) = phnum := by omega
        rw [phdrsFrom_of_le hcut] at hm hs hap
        rw [pageNeed_append] at hm
        rw [loadedSegments_append] at hs
        rw [placesOf_append, List.map_append, ← List.append_assoc] at hap
        obtain ⟨hs₁, hs₂⟩ := List.forall_mem_append.mp hs
        obtain ⟨visits₁, ok₁, σ₂, he₁, hx₁⟩ := y₁.loadHeaders_run hE hF hn (by omega) hfuel hs₁ hap.left
        obtain ⟨es₁, w⟩ := y₁.loadHeaders_walked hE hF hn (by omega) he₁ hx₁
        rw [he, ExceptT.run_bind_ok he₁]
        cases ok₁
        case false => exact ⟨_, _, _, rfl, hx₁⟩
        case true =>
          have hl : allLoaded image ((List.range (min n onceLoad)).map (image.phdr offset)) = true := by
            simpa using w.status.symm
          have ht : 0 < min n onceLoad := by
            simp only [onceLoad, pageSize, phdrSize, Nat.reduceDiv]
            omega
          rw [if_pos hl] at hs₂ hap
          rw [← w.vas_eq y₁.loaded] at hap
          obtain ⟨visits₂, ok₂, σ₃, he₂, hx₂⟩ := hi (w.ready rfl) (by have := w.length_le; omega) hr' (by omega) hs₂ hap
          simp only [if_true]
          rw [ExceptT.run_bind_ok he₂]
          exact ⟨_, _, _, rfl, List.forall_mem_append.mpr ⟨hx₁, hx₂⟩⟩

end Loop

end Zgmos.Process
