import Zgmos.Fat32.Find
import Zgmos.Fat32.LongName

-- A long name is found again in the slots to which the FAT32 rules write it.

namespace Zgmos.Fat32

-- The units of a name, the zero behind it and the padding.
def nameUnit (name : Name) (k : Nat) : BitVec 16 :=
  if h : k < name.length then name[k].setWidth 16 else if k = name.length then 0 else 0xffff

def pieceCount (name : Name) : Nat :=
  (name.length + 12) / longFnLen

def longNameUnit (j : Nat) : Nat :=
  longNameUnits.getD j 0

def Slot.unit (e : Slot) (j : Nat) : BitVec 16 :=
  e (longNameUnit j + 1) ++ e (longNameUnit j)

-- The slot of the piece `k`. The number of the last piece is marked.
structure IsPiece (name : Name) (k : Nat) (e : Slot) : Prop where
  ord   : e 0 = .ofNat 8 (k + 1) ||| if k + 1 = pieceCount name then 0x40 else 0
  attr  : e.attr = attrLongName
  units : ∀ j < longFnLen, e.unit j = nameUnit name (longFnLen * k + j)

-- The slots of all pieces in descending order.
def Encodes (name : Name) (es : List Slot) : Prop :=
  es.length = pieceCount name ∧ ∀ i (h : i < es.length), IsPiece name (pieceCount name - 1 - i) es[i]

-- The slot of a piece, with zeros in the other members.
def encodePiece (name : Name) (k : Nat) : Slot := fun i =>
  if i = 0 then .ofNat 8 (k + 1) ||| if k + 1 = pieceCount name then 0x40 else 0
  else if i = 11 then attrLongName
  else if i ∈ longNameUnits then (nameUnit name <| longFnLen * k + longNameUnits.idxOf i).setWidth 8
  else if i - 1 ∈ longNameUnits then (nameUnit name <| longFnLen * k + longNameUnits.idxOf (i - 1)).extractLsb' 8 8
  else 0

variable {fs : Fat32Fs} {v : Volume fs} {cidx : Cidx} {cs : List Cidx} {obj : Fat32Obj} {st : Fns} {e : Slot}
  {es pre rest : List Slot} {name : Name} {n m p k fuel : Nat}

theorem takeWhile_range {q : Nat → Bool} (h : ∀ j < n, q j ↔ j < m) :
    (List.range n).takeWhile q = List.range (min n m) := by
  cases Nat.le_total n m
  case inl hl =>
    rw [Nat.min_eq_left hl, List.takeWhile_eq_self_iff]
    intro j hj
    rw [List.mem_range] at hj
    exact (h j hj).mpr <| hj.trans_le hl
  case inr hl =>
    have hr : List.range n = List.range m ++ List.range' m (n - m) := by
      have := @List.range'_append_1 0 m (n - m)
      rw [Nat.zero_add, Nat.add_sub_cancel' hl] at this
      rw [List.range_eq_range', List.range_eq_range', this]
    have hq : ∀ j ∈ List.range m, q j := by
      intro j hj
      rw [List.mem_range] at hj
      exact (h j <| hj.trans_le hl).mpr hj
    have ht : (List.range' m (n - m)).takeWhile q = [] := by
      cases hd : n - m
      case zero => rfl
      case succ =>
        have := (h m <| by omega).not.mpr <| Nat.lt_irrefl m
        rw [List.range'_succ, List.takeWhile_cons_of_neg this]
    rw [hr, List.takeWhile_append_of_pos hq, ht, List.append_nil, Nat.min_eq_right hl]

theorem append_inj {a b c d : Byte} (h : a ++ b = c ++ d) : a = c ∧ b = d := by
  constructor
  case left =>
    have := congrArg (BitVec.extractLsb' 8 8) h
    rwa [BitVec.extractLsb'_append_eq_left, BitVec.extractLsb'_append_eq_left] at this
  case right =>
    have := congrArg (BitVec.setWidth 8) h
    rwa [BitVec.setWidth_append_eq_right, BitVec.setWidth_append_eq_right] at this

theorem append_parts (u : BitVec 16) : (u.extractLsb' 8 8 ++ u.setWidth 8 : BitVec (8 + 8)) = u := by
  apply BitVec.eq_of_getLsbD_eq
  intro i hi
  rw [BitVec.getLsbD_append]
  split
  case isTrue h => simp [h]
  case isFalse h =>
    have h₁ : 8 + (i - 8) = i := by omega
    have h₂ : i - 8 < 8 := by omega
    simp [h₁, h₂]

-- Thirteen elements at a time.
theorem flatMap_chunks (l : List α) (n : Nat) :
    (List.range n).flatMap (fun k => (l.drop (longFnLen * k)).take longFnLen) = l.take (longFnLen * n) := by
  induction n
  case zero => simp
  case succ n hi => rw [List.range_succ, List.flatMap_append, hi, List.flatMap_singleton, Nat.mul_succ, List.take_add]

theorem longNameUnits_eq : longNameUnits = (List.range longFnLen).map longNameUnit :=
  rfl

namespace IsPiece

variable (h : IsPiece name k e)

include h

theorem isLongName (hk : k < longFnStackNum) : ¬e.isFree ∧ e.isLongName := by
  have hn : ∀ k < longFnStackNum, ∀ x ∈ [(0x40 : Byte), 0],
      (.ofNat 8 (k + 1) ||| x) ≠ dirnameFree ∧ (.ofNat 8 (k + 1) ||| x) ≠ dirnameResFree := by decide
  have := hn k hk (if k + 1 = pieceCount name then 0x40 else 0) <| by split <;> simp
  rw [← h.ord] at this
  simp [Slot.isFree, Slot.isLongName, this, h.attr, attrLongName, attrLongNameMask]

theorem bytes_eq {j : Nat} (hj : j < longFnLen) :
    e (longNameUnit j + 1) = (if longFnLen * k + j ≤ name.length then 0 else 0xff) ∧
      e (longNameUnit j) = name.getD (longFnLen * k + j) (if longFnLen * k + j = name.length then 0 else 0xff) := by
  apply append_inj
  apply (h.units j hj).trans
  unfold nameUnit
  split
  case isTrue hl =>
    rw [if_pos hl.le, List.getD_eq_getElem _ _ hl]
    exact BitVec.setWidth_eq_append (by decide)
  case isFalse hl =>
    rw [List.getD_eq_default _ _ <| Nat.le_of_not_lt hl]
    split
    case isTrue he  => rw [if_pos he.le]; rfl
    case isFalse he => rw [if_neg <| by omega]; rfl

theorem isEnd_iff {j : Nat} (hj : j < longFnLen) :
    e (longNameUnit j) = 0xff ∧ e (longNameUnit j + 1) = 0xff ↔ name.length < longFnLen * k + j := by
  have ⟨hh, hl⟩ := h.bytes_eq hj
  rw [hh, hl]
  constructor
  case mp =>
    intro ⟨_, he⟩
    by_contra hc
    rw [if_pos <| Nat.le_of_not_lt hc] at he
    exact absurd he <| by decide
  case mpr =>
    intro hn
    rw [List.getD_eq_default _ _ hn.le, if_neg hn.ne', if_neg <| Nat.not_le_of_lt hn]
    exact ⟨rfl, rfl⟩

theorem units_eq : (longNameUnits.takeWhile fun k => ¬(e k = 0xff ∧ e (k + 1) = 0xff)) =
    (List.range (min longFnLen (name.length + 1 - longFnLen * k))).map longNameUnit := by
  rw [longNameUnits_eq, List.takeWhile_map]
  apply congrArg
  refine takeWhile_range fun j hj => ?_
  have := h.isEnd_iff hj
  simp only [Function.comp_apply, this, decide_eq_true_eq]
  omega

theorem map_eq (hn : n ≤ longFnLen) (hl : longFnLen * k + n ≤ name.length) :
    (List.range n).map (fun j => e (longNameUnit j)) = (name.drop (longFnLen * k)).take n := by
  apply List.ext_getElem
  case hl => rw [List.length_map, List.length_range, List.length_take, List.length_drop]; omega
  case h =>
    intro j hj _
    rw [List.length_map, List.length_range] at hj
    simp only [List.getElem_map, List.getElem_range, List.getElem_take, List.getElem_drop]
    rw [(h.bytes_eq <| hj.trans_le hn).2]
    exact List.getD_eq_getElem _ _ <| by omega

-- The piece is copied with a zero behind it.
theorem copyNameLong_eq (hk : longFnLen * k < name.length) :
    ∃ zs, fat32CopyNameLong e = (name.drop (longFnLen * k)).take longFnLen ++ 0 :: zs := by
  unfold fat32CopyNameLong
  rw [h.units_eq]
  dsimp only
  rw [List.map_map]
  cases Nat.lt_or_ge name.length (longFnLen * k + longFnLen)
  case inr hl =>
    have hc : min longFnLen (name.length + 1 - longFnLen * k) = longFnLen := by omega
    rw [hc, if_pos longNameUnits_eq.symm]
    exact ⟨[], congrArg (· ++ [0]) <| h.map_eq le_rfl hl⟩
  case inl hl =>
    have hc : min longFnLen (name.length + 1 - longFnLen * k) = name.length - longFnLen * k + 1 := by omega
    have hz : e (longNameUnit (name.length - longFnLen * k)) = 0 := by
      have he : longFnLen * k + (name.length - longFnLen * k) = name.length := by omega
      rw [(h.bytes_eq <| by omega).2, he, List.getD_eq_default _ _ le_rfl, if_pos rfl]
    have hm : (List.range (name.length - longFnLen * k + 1)).map (e ∘ longNameUnit) =
        (name.drop (longFnLen * k)).take longFnLen ++ [0] := by
      have hd : (name.drop (longFnLen * k)).length ≤ longFnLen := by rw [List.length_drop]; omega
      have hm := h.map_eq (n := name.length - longFnLen * k) (by omega) <| by omega
      rw [List.range_succ, List.map_append, List.take_of_length_le hd]
      rw [← List.length_drop, List.take_length, List.length_drop] at hm
      exact congrArg₂ (· ++ ·) hm <| congrArg ([·]) hz
    rw [hc, hm]
    split
    case isTrue  => exact ⟨[0], List.append_assoc ..⟩
    case isFalse => exact ⟨[], rfl⟩

theorem string_eq (hz : 0 ∉ name) (hk : longFnLen * k < name.length) :
    0 ∈ fat32CopyNameLong e ∧
      (fat32CopyNameLong e).takeWhile (· ≠ 0) = (name.drop (longFnLen * k)).take longFnLen := by
  have ⟨zs, he⟩ := h.copyNameLong_eq hk
  have hn : ∀ b ∈ (name.drop (longFnLen * k)).take longFnLen, decide (b ≠ 0) := by
    intro b hb
    simpa using ne_of_mem_of_not_mem (List.mem_of_mem_drop <| List.mem_of_mem_take hb) hz
  rw [he, List.takeWhile_append_of_pos hn]
  simp

omit h in
theorem encodePiece (name : Name) (k : Nat) : IsPiece name k (encodePiece name k) where
  ord   := rfl
  attr  := rfl
  units := by
    intro j hj
    have hu : ∀ j < longFnLen, longNameUnit j ∈ longNameUnits ∧ longNameUnits.idxOf (longNameUnit j) = j ∧
        longNameUnit j + 1 ∉ longNameUnits ∧ longNameUnit j ≠ 0 ∧ longNameUnit j ≠ 11 ∧ longNameUnit j + 1 ≠ 11 := by
      decide
    have ⟨h₁, h₂, h₃, h₄, h₅, h₆⟩ := hu j hj
    rw [Slot.unit]
    simp only [Fat32.encodePiece, h₁, h₂, h₃, h₄, h₅, h₆, if_true, if_false, Nat.add_sub_cancel, Nat.succ_ne_zero]
    exact append_parts _

theorem congr {e' : Slot} (he : ∀ i < 32, e' i = e i) : IsPiece name k e' where
  ord   := (he 0 <| by decide).trans h.ord
  attr  := (he 11 <| by decide).trans h.attr
  units := by
    intro j hj
    have hu : ∀ j < longFnLen, longNameUnit j + 1 < 32 := by decide
    have := hu j hj
    rw [Slot.unit, he _ this, he _ <| by omega]
    exact h.units j hj

end IsPiece

-- The pieces of a name.
theorem Encodes.pieces (h : Encodes name es) (hz : 0 ∉ name) :
    ∀ j (hj : j < es.length), 0 ∈ fat32CopyNameLong es[j] ∧ (fat32CopyNameLong es[j]).takeWhile (· ≠ 0) =
      (name.drop (longFnLen * (es.length - 1 - j))).take longFnLen := by
  intro j hj
  have hp := h.2 j hj
  rw [← h.1] at hp
  refine hp.string_eq hz ?_
  have := h.1
  unfold pieceCount longFnLen at *
  omega

theorem Encodes.longName (h : Encodes name es) (hl : name.length ≤ longFnLen * longFnStackNum) :
    es.length ≤ longFnStackNum ∧ ∀ e ∈ es, ¬e.isFree ∧ e.isLongName := by
  have hn : es.length ≤ longFnStackNum := by
    rw [h.1]
    unfold pieceCount longFnLen longFnStackNum at *
    omega
  refine ⟨hn, fun e he => ?_⟩
  have ⟨i, hi, he⟩ := List.getElem_of_mem he
  exact he ▸ (h.2 i hi).isLongName (by rw [← h.1]; omega)

-- The name that is read from the stack after the pieces.
theorem Encodes.longFn (h : Encodes name es) (hz : 0 ∉ name) (hl : name.length ≤ longFnLen * longFnStackNum)
    (r : Represents st [] (es.map fat32CopyNameLong)) (hne : es ≠ []) : st.longFn = .ok (name ++ [0]) := by
  have ⟨hn, _⟩ := h.longName hl
  have hf : st.fnNum = longFnStackNum - es.length := by
    rw [r.fnNum <| by simpa using hne, List.length_map]
  have hr (k : Nat) (hk : k < es.length) : 0 ∈ st.rows (st.fnNum + k) ∧
      (st.rows (st.fnNum + k)).takeWhile (· ≠ 0) = (name.drop (longFnLen * k)).take longFnLen := by
    have hj : es.length - 1 - k < es.length := by omega
    have hi : longFnStackNum - 1 - (es.length - 1 - k) = st.fnNum + k := by omega
    have hs := r.rows (es.length - 1 - k) <| by omega
    have hp := h.pieces hz _ hj
    rw [hi] at hs
    rw [hs]
    simp only [List.nil_append, List.filterMap_cons, List.getElem?_map, List.getElem?_eq_getElem hj, Option.map_some,
      List.filterMap_nil]
    rw [show es.length - 1 - (es.length - 1 - k) = k by omega] at hp
    simpa [overlay] using hp
  have hz : ∀ j, st.fnNum ≤ j → j < longFnStackNum → 0 ∈ st.rows j := by
    intro j hj hlt
    have := (hr (j - st.fnNum) <| by omega).1
    rwa [Nat.add_sub_cancel' hj] at this
  have hm : (List.range' st.fnNum (longFnStackNum - st.fnNum)).map (fun j => (st.rows j).takeWhile (· ≠ 0)) =
      (List.range es.length).map fun k => (name.drop (longFnLen * k)).take longFnLen := by
    rw [show longFnStackNum - st.fnNum = es.length by omega, List.range'_eq_map_range, List.map_map]
    refine List.map_congr_left fun k hk => ?_
    exact (hr k <| List.mem_range.mp hk).2
  have ht : name.take (longFnLen * es.length) = name := by
    refine List.take_of_length_le ?_
    rw [h.1]
    unfold pieceCount longFnLen
    omega
  rw [longFn_eq hz, hm, ← List.flatMap_def, flatMap_chunks, ht]

-- The slots in front of a name: deleted ones, and others which have no piece and no entry.
def Passed (fs : Fat32Fs) (e : Slot) : Prop :=
  e.isFree ∨ ¬e.isLongName ∧ e.entry? fs = none

theorem look_passed (h : ∀ e ∈ es, Passed fs e) (hf : st.flag = false) :
    look fs obj st es = .ok (.inl st) := by
  induction es
  case nil => rfl
  case cons e es hi =>
    have hv : visit fs st obj e = .ok (.next st) := by
      unfold visit
      cases h e <| .head _
      case inl hf => rw [if_pos hf]; rfl
      case inr hp =>
        have hn := hp.2
        split
        case isTrue => rfl
        rw [if_neg hp.1]
        unfold Slot.entry? at hn
        split
        case isTrue hx hi => simp [hx, hp.1, hi] at hn
        split
        case isTrue hx hi hd => simp [hx, hp.1, hi, hd] at hn
        case isFalse         => rw [← hf]; rfl
    rw [look, hv]
    exact hi fun e he => h e <| .tail _ he

theorem isString_write (m : Memory Byte) (name : Name) : isString (m.write 0 (name ++ [0])) name := by
  refine decide_eq_true <| List.ext_getElem (by simp) fun k hk _ => ?_
  rw [List.length_map, List.length_range] at hk
  have := @Memory.write_of_lt _ m 0 k (name ++ [0]) <| by simpa using hk
  rw [Nat.zero_add] at this
  simpa using this

theorem slotsAhead_chain (h : Chain v cidx cs) (hp : p ≤ slotsPerCluster fs) (hn : cs.length ≤ n) :
    slotsAhead v cidx p n = (chainSlots v cs).drop p := by
  induction h generalizing p n
  case nil h =>
    have hs : chainSlots v [] = [] := rfl
    rw [hs, List.drop_nil]
    cases n
    case zero => rfl
    case succ => rw [slotsAhead, if_neg <| BitVec.not_lt.mpr h]
  case cons cidx cidx' cs hlt hg _ hi =>
    obtain ⟨m, hm⟩ := Nat.exists_eq_succ_of_ne_zero <| Nat.ne_zero_of_lt hn
    have hc : chainSlots v (cidx :: cs) = clusterSlots v cidx ++ chainSlots v cs := List.flatMap_cons
    rw [hm, List.length_cons] at hn
    rw [hm, slotsAhead, if_pos hlt, hg, hc, List.drop_append_of_le_length <| by simpa using hp]
    dsimp only
    rw [hi (Nat.zero_le _) <| by omega, List.drop_zero]

-- The call finds the name of the next entry.
theorem iterNext_decodes (l : Aligned fs) (h : Chain v cidx cs) (hp : p < slotsPerCluster fs) (hz : 0 ∉ name)
    (hn : 1 ≤ name.length) (hl : name.length ≤ 130) (hs : (chainSlots v cs).drop p = pre ++ es ++ e :: rest)
    (hpre : ∀ e ∈ pre, Passed fs e) (hes : Encodes name es) (he : Option.isSome <| e.entry? fs) (hf : cs.length ≤ fuel)
    (obj : Fat32Obj) : ∃ iter obj', (fat32IterNext fuel (iterAt fs cidx p) obj).eval v = .ok (some (iter, obj')) ∧
      isString obj'.longFn name ∧ obj'.cidx = e.firstCluster := by
  obtain ⟨hlen, hpi⟩ := hes.longName hl
  have hne : es ≠ [] := by
    intro hc
    have := hes.1
    rw [hc] at this
    unfold pieceCount longFnLen at this
    simp at this
    omega
  obtain ⟨st, hst, r⟩ : ∃ st, look fs obj .init es = .ok (.inl st) ∧ Represents st [] (es.map fat32CopyNameLong) :=
    represents_init.look_pieces hpi <| by simpa using hlen
  have hflag : st.flag := r.flag.mpr <| by simpa using hne
  obtain ⟨obj', hv, hlf, hc⟩ := @visit_entry_named fs obj st e _ he hflag <| hes.longFn hz hl r hne
  have hk : look fs obj .init (slotsAhead v cidx p fuel) = .ok (.inr obj') := by
    rw [slotsAhead_chain h hp.le hf, hs, look_append, look_append, look_passed hpre rfl]
    simp only [bind, Except.bind, hst]
    rw [look, hv]
    rfl
  obtain ⟨iter, hi⟩ := ((iterClusters_look l hp).2 obj').mpr hk
  exact ⟨iter, obj', hi, hlf ▸ isString_write .., hc⟩

-- A name of fourteen characters and a deleted slot in front of it.
def sampleName : Name :=
  List.replicate 14 0x41

def namedVolume : Volume sample :=
  slotsVolume [fun _ => 0, encodePiece sampleName 1, encodePiece sampleName 0, fun _ => 0x41]

theorem namedVolume_slot {j k : Nat} (hj : j < 16) (hk : k < 32) :
    slotAt (namedVolume <| clusterSidx sample 3 0) (32 * j) k =
      [fun _ => 0, encodePiece sampleName 1, encodePiece sampleName 0, fun _ => 0x41].getD j (fun _ => 0) k :=
  slotsVolume_slot hj hk

theorem namedVolume_chain : Chain namedVolume 3 [3] :=
  slotsVolume_chain _

theorem namedVolume_slots : ∃ s₀ s₁ s₂ s₃ rest, chainSlots namedVolume [3] = [s₀] ++ [s₁, s₂] ++ s₃ :: rest ∧ s₀.isFree ∧
    Encodes sampleName [s₁, s₂] ∧ ( Slot.entry? sample s₃).isSome ∧ s₃.firstCluster = 0x41414141 := by
  have h₀ (k : Nat) (hk : k < 32) := @namedVolume_slot 0 k (by decide) hk
  have h₁ (k : Nat) (hk : k < 32) := @namedVolume_slot 1 k (by decide) hk
  have h₂ (k : Nat) (hk : k < 32) := @namedVolume_slot 2 k (by decide) hk
  have h₃ (k : Nat) (hk : k < 32) := @namedVolume_slot 3 k (by decide) hk
  refine ⟨slotAt (namedVolume <| clusterSidx sample 3 0) (32 * 0), slotAt (namedVolume <| clusterSidx sample 3 0) (32 * 1),
    slotAt (namedVolume <| clusterSidx sample 3 0) (32 * 2), slotAt (namedVolume <| clusterSidx sample 3 0) (32 * 3), _, rfl,
    ?_, ?_, ?_, ?_⟩
  all_goals generalize namedVolume (clusterSidx sample 3 0) = dat at h₀ h₁ h₂ h₃ ⊢
  case refine_1 => exact decide_eq_true <| .inr <| h₀ 0 <| by decide
  case refine_2 =>
    refine ⟨show 2 = pieceCount sampleName by decide, fun i hi => ?_⟩
    have hi : i = 0 ∨ i = 1 := by rw [List.length_cons, List.length_singleton] at hi; omega
    cases hi
    case inl hi => subst hi; exact (IsPiece.encodePiece sampleName 1).congr h₁
    case inr hi => subst hi; exact (IsPiece.encodePiece sampleName 0).congr h₂
  case refine_3 =>
    unfold Slot.entry?
    rw [Slot.isFree, Slot.isLongName, Slot.isFile, Slot.attr, h₃ _ (by decide), h₃ _ (by decide)]
    rfl
  case refine_4 =>
    rw [Slot.firstCluster, h₃ _ (by decide), h₃ _ (by decide), h₃ _ (by decide), h₃ _ (by decide)]
    rfl

theorem namedVolume_decodes : ∃ iter obj',
    (fat32IterNext 1 (iterAt sample 3 0) sampleDirectory).eval namedVolume = .ok (some (iter, obj')) ∧
      isString obj'.longFn sampleName ∧ obj'.cidx = 0x41414141 := by
  obtain ⟨s₀, s₁, s₂, s₃, rest, hs, hf, hes, hen, hc⟩ := namedVolume_slots
  have hpre : ∀ e ∈ [s₀], Passed sample e := fun e he => .inl <| (List.mem_singleton.mp he).symm ▸ hf
  rw [← hc]
  exact iterNext_decodes sample_layout.toAligned namedVolume_chain (by decide) (by decide) (by decide) (by decide)
    (p := 0) hs hpre hes hen (by decide) sampleDirectory

-- A name in its slots is safe.
theorem Encodes.bounded (h : Encodes name es) (hz : 0 ∉ name) (hl : name.length ≤ longFnLen * longFnStackNum)
    (hpre : ∀ e ∈ pre, e.isFree) (he : Option.isSome <| e.entry? fs) : Bounded fs (pre ++ es ++ e :: rest) := by
  obtain ⟨hlen, hpi⟩ := h.longName hl
  have hn : namesAhead fs (pre ++ es ++ e :: rest) = [es.map fat32CopyNameLong] := by
    have hnone : ∀ e ∈ pre ++ es, Option.isNone <| e.entry? fs := by
      intro e hm
      cases List.mem_append.mp hm
      case inl hm => simp [Slot.entry?, hpre e hm]
      case inr hm => simp [Slot.entry?, hpi e hm]
    rw [namesAhead, List.takeWhile_append_of_pos hnone,
      List.takeWhile_cons_of_neg (by simp [Option.isSome_iff_ne_none.mp he]), List.append_nil, names_free hpre,
      names_longName hpi]
  constructor
  case rows =>
    intro name hm
    rw [hn, List.mem_singleton] at hm
    rw [hm, List.length_map]
    exact hlen
  case ends =>
    intro _ name hm j hj
    rw [hn] at hm ⊢
    cases hm
    have hj' : j < es.length := by simpa using hj
    simpa [overlay, hj'] using (h.pieces hz j hj').1

-- The slots of the name may be followed by anything.
theorem namedVolume_safe : Safe namedVolume 3 0 sampleDirectory := by
  obtain ⟨s₀, s₁, s₂, s₃, rest, hs, hf, hes, hen, _⟩ := namedVolume_slots
  refine (iterNext_safe_iff sample_layout.toAligned <| by decide).mpr fun n => ?_
  cases n
  case zero => exact ⟨by simp [slotsAhead, namesAhead, names], by simp [slotsAhead]⟩
  case succ n =>
    rw [slotsAhead_chain namedVolume_chain (Nat.zero_le _) (Nat.succ_pos n), hs]
    exact hes.bounded (by decide) (by decide) (fun e he => (List.mem_singleton.mp he).symm ▸ hf) hen

end Zgmos.Fat32
