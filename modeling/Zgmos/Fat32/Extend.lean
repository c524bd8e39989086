import Zgmos.Fat32.Cache
import Zgmos.Fat32.Table

-- The extension of a chain by `fat32_set_chain_auto`.

namespace Zgmos.Fat32

section

variable {fs : Fat32Fs}

def wordBytes (val : BitVec 32) : Block 4 Byte :=
  fun k => val.extractLsb' (8 * k) 8

def fat32SetChain (b : Bio fs) (index val : Cidx) : Except Fault (Bio fs) :=
  if fs.chainPerSector = 0 then throw .divByZero else do
    let (addr, b) ← b.write <| tableSidx fs index
    return { b with buf := b.buf.store (addr + 4 * (index.toNat % fs.chainPerSector)) (wordBytes val) }

-- The same on a volume without buffers.
def Volume.setChain (v : Volume fs) (index val : Cidx) : Volume fs :=
  Function.update v (tableSidx fs index) <|
    (v <| tableSidx fs index).splice (4 * (index.toNat % fs.chainPerSector)) (wordBytes val)

end

namespace Fat32Geometry

variable (g : Fat32Geometry)

def fat32SetChainAuto (fuel : Nat) (b : Bio g.toFat32Fs) (cur : Cidx) : Except Fault (Cidx × Bio g.toFat32Fs) := do
  let (nxtAval, b) ← (g.fat32SearchAvailChain fuel cur).run Bio.sector b
  let b ← fat32SetChain b cur nxtAval
  let b ← fat32SetChain b nxtAval chainEndFlag
  return (nxtAval, b)

-- The clusters with a word in the table. The first two words belong to no cluster.
def IsCluster (c : Cidx) : Prop :=
  2 ≤ c.toNat ∧ c.toNat < g.secPerTable.toNat * g.chainPerSector

def IsFree (v : Volume g.toFat32Fs) (c : Cidx) : Prop :=
  g.IsCluster c ∧ tableWord v c.toNat = 0

-- The chain of a file, which consists of clusters.
structure FileChain (v : Volume g.toFat32Fs) (start : Cidx) (cs : List Cidx) : Prop where
  chain    : Chain v start cs
  clusters : ∀ c ∈ cs, g.IsCluster c

-- The free cluster `n` becomes the last one of the chain which ended with `cur`.
structure Extends (v v' : Volume g.toFat32Fs) (cur n : Cidx) : Prop where
  free   : g.IsFree v n
  last   : chainEndFlag ≤ tableWord v' n.toNat
  words  : ∀ i < g.secPerTable.toNat * g.chainPerSector, i ≠ cur.toNat → i ≠ n.toNat → tableWord v' i = tableWord v i
  chain  : ∀ start cs, g.FileChain v start cs → cs.getLast? = some cur → g.FileChain v' start (cs ++ [n])
  chains : ∀ start cs, g.FileChain v start cs → cs.getLast? ≠ some cur → g.FileChain v' start cs

-- There is a free cluster from `cur` on.
def HasFree (v : Volume g.toFat32Fs) (cur : Cidx) : Prop :=
  ∃ c, g.IsFree v c ∧ cur ≤ c

-- The call ends. It extends the chain by a free cluster, or it changes nothing if there is none.
def ExtendsChain (b : Bio g.toFat32Fs) (v : Volume g.toFat32Fs) (cur : Cidx) : Prop :=
  ∃ fuel r b' v', g.fat32SetChainAuto fuel b cur = .ok (r, b') ∧ b'.Coherent v' ∧
    (g.HasFree v cur → ∃ n, g.Extends v v' cur n) ∧
    (¬g.HasFree v cur → r = 0 ∧ ∀ i < g.secPerTable.toNat * g.chainPerSector, tableWord v' i = tableWord v i)

-- The cluster that lies the reserved sectors behind the first word below the end mark is free.
structure FreeShifted (v : Volume g.toFat32Fs) (cur : Cidx) : Prop where
  hasFree : g.HasFree v cur
  inside  : Fat32.tableSidx g.toFat32Fs cur < g.secPerTable
  shifted : ∃ i, FirstBelow (v <| Fat32.tableSidx g.toFat32Fs cur) (cur.toNat % g.chainPerSector) i ∧
    ∃ c < chainEndFlag, g.IsFree v c ∧
      c.toNat = ((cur.toNat / g.chainPerSector + g.reservedSecCnt) * g.chainPerSector + i) % 2 ^ 32

end Fat32Geometry

section

variable {fs : Fat32Fs} {v v' : Volume fs} {b : Bio fs} {d : Sector fs} {val index c cidx n : Cidx} {cs : List Cidx}
  {i j k : Nat}

theorem byteAt_splice_of_lt {d' : Block k Byte} (hj : j < k) (hb : i + k ≤ fs.bytePerSector) :
    byteAt (d.splice i d') (i + j) = d' ⟨j, hj⟩ := by
  have hl : i + j < fs.bytePerSector := by omega
  simp [byteAt, Block.splice, hl, hj]

theorem byteAt_splice_of_not {d' : Block k Byte} (h : j < i ∨ i + k ≤ j) : byteAt (d.splice i d') j = byteAt d j := by
  have hn : ¬(i ≤ j ∧ j - i < k) := by omega
  simp [byteAt, Block.splice, hn]

theorem append_wordBytes : (wordBytes val 3 ++ wordBytes val 2 ++ wordBytes val 1 ++ wordBytes val 0 : BitVec 32) = val := by
  apply BitVec.eq_of_getLsbD_eq
  intro i hi
  simp only [BitVec.getLsbD_append, wordBytes, BitVec.getLsbD_extractLsb']
  split_ifs
  all_goals
    have : i < 32 := hi
    simp only [Fin.val_zero, Fin.val_one, Fin.val_two, show (3 : Fin 4).val = 3 from rfl]
    rw [decide_eq_true (by omega), Bool.true_and]
    congr 1
    omega

theorem wordAt_splice (hi : 4 * i + 4 ≤ fs.bytePerSector) :
    wordAt (d.splice (4 * i) (wordBytes val)) (4 * j) = if j = i then val else wordAt d (4 * j) := by
  split_ifs with h
  case pos =>
    subst h
    have hb (k : Nat) (hk : k < 4) : byteAt (d.splice (4 * j) (wordBytes val)) (4 * j + k) = wordBytes val ⟨k, hk⟩ :=
      byteAt_splice_of_lt hk hi
    have h₀ := hb 0 (by decide)
    rw [Nat.add_zero] at h₀
    rw [wordAt, hb 3 (by decide), hb 2 (by decide), hb 1 (by decide), h₀]
    exact append_wordBytes
  case neg =>
    rw [wordAt, byteAt_splice_of_not <| by omega, byteAt_splice_of_not <| by omega,
      byteAt_splice_of_not <| by omega, byteAt_splice_of_not <| by omega]
    rfl

theorem tableSidx_inj (h : i / fs.chainPerSector < 2 ^ 32) (hj : j / fs.chainPerSector < 2 ^ 32) :
    (BitVec.ofNat 32 (i / fs.chainPerSector + fs.reservedSecCnt) : Sidx) =
      .ofNat 32 (j / fs.chainPerSector + fs.reservedSecCnt) ↔ i / fs.chainPerSector = j / fs.chainPerSector := by
  rw [← BitVec.toNat_inj, BitVec.toNat_ofNat, BitVec.toNat_ofNat]
  apply Iff.intro
  case mp =>
    intro he
    have : i / fs.chainPerSector ≡ j / fs.chainPerSector [MOD 2 ^ 32] := Nat.ModEq.add_right_cancel' _ he
    rwa [Nat.ModEq, Nat.mod_eq_of_lt h, Nat.mod_eq_of_lt hj] at this
  case mpr => exact fun he => he ▸ rfl

-- One word of the table is changed.
theorem tableWord_setChain (hc : fs.chainPerSector ≠ 0) (hi : i / fs.chainPerSector < 2 ^ 32) :
    tableWord (v.setChain index val) i = if i = index.toNat then val else tableWord v i := by
  have hd (k : Nat) := Nat.div_add_mod k fs.chainPerSector
  have hm : index.toNat % fs.chainPerSector < fs.chainPerSector := Nat.mod_lt _ <| Nat.pos_of_ne_zero hc
  have hb : 4 * (index.toNat % fs.chainPerSector) + 4 ≤ fs.bytePerSector := by
    unfold Fat32Fs.chainPerSector at hm ⊢
    omega
  have hx : index.toNat / fs.chainPerSector < 2 ^ 32 := (Nat.div_le_self ..).trans_lt index.isLt
  unfold tableWord Volume.setChain
  by_cases hs : i / fs.chainPerSector = index.toNat / fs.chainPerSector
  case pos =>
    have he : i = index.toNat ↔ i % fs.chainPerSector = index.toNat % fs.chainPerSector :=
      ⟨fun h => h ▸ rfl, fun h => by rw [← hd i, ← hd index.toNat, hs, h]⟩
    rw [hs, tableSidx, Function.update_self, wordAt_splice hb]
    exact if_congr he.symm rfl rfl
  case neg =>
    have hn := (tableSidx_inj hi hx).not.mpr hs
    have hne : i ≠ index.toNat := fun he => hs <| congrArg (· / fs.chainPerSector) he
    rw [tableSidx, Function.update_of_ne hn, if_neg hne]

theorem Bio.Coherent.setChain (w : b.Coherent v) (hn : 0 < fs.bufNum) (hc : fs.chainPerSector ≠ 0) :
    ∃ b', fat32SetChain b index val = .ok b' ∧ b'.Coherent (v.setChain index val) := by
  have ⟨i, b', hb, wb, hi⟩ := w.access hn <| tableSidx fs index
  have hm : index.toNat % fs.chainPerSector < fs.chainPerSector := Nat.mod_lt _ <| Nat.pos_of_ne_zero hc
  have ha : 4 * (index.toNat % fs.chainPerSector) + 4 ≤ fs.bytePerSector := by
    unfold Fat32Fs.chainPerSector at hm ⊢
    omega
  refine ⟨_, ?_, wb.setDirty hi.1 |>.store hi.setDirty (by simp) ha <| wordBytes val⟩
  rw [fat32SetChain, if_neg hc, Bio.write, hb]
  rfl

-- The buffers and the disk contain one volume only.
theorem Bio.Coherent.volume_unique (w : b.Coherent v) (w' : b.Coherent v') : v' = v := by
  funext sidx
  by_cases h : ∃ i, b.Valid i ∧ b.bufSidx i = sidx
  case pos =>
    have ⟨i, hi, hs⟩ := h
    rw [← hs, ← w.slot hi, ← w'.slot hi]
  case neg =>
    have hn : ∀ i, b.Valid i → b.bufSidx i = sidx → b.bufFlags i = .clean := fun i hi hs => absurd ⟨i, hi, hs⟩ h
    rw [← w.disk hn, ← w'.disk hn]

theorem fat32GetChain_word (hc : fs.chainPerSector ≠ 0) : (fat32GetChain c).eval v = .ok (tableWord v c.toNat) :=
  fat32GetChain_eval hc

namespace Chain

variable (h : Chain v cidx cs)

include h

-- The word of a cluster is the next cluster, if there is one.
theorem word_mem (hc : c ∈ cs) (hl : tableWord v c.toNat < chainEndFlag) : tableWord v c.toNat ∈ cs := by
  have hz := h.chainPerSector_ne_zero <| List.ne_nil_of_mem hc
  induction h
  case nil => cases hc
  case cons cidx cidx' cs hlt hg r hi =>
    cases hc
    case tail hm => exact .tail _ <| hi hm
    case head =>
      rw [fat32GetChain_word hz] at hg
      cases hg
      cases r
      case nil hn     => exact absurd hl <| BitVec.not_lt.mpr hn
      case cons h _ _ => exact .tail _ <| .head _

theorem word_last (hl : cs.getLast? = some c) : chainEndFlag ≤ tableWord v c.toNat := by
  have hz := h.chainPerSector_ne_zero fun hn => by simp [hn] at hl
  induction h
  case nil => cases hl
  case cons cidx cidx' cs hlt hg r hi =>
    cases r
    case nil hn =>
      cases hl
      rw [fat32GetChain_word hz] at hg
      cases hg
      exact hn
    case cons => exact hi <| by simpa using hl

theorem congr_words (hw : ∀ c ∈ cs, tableWord v' c.toNat = tableWord v c.toNat) : Chain v' cidx cs := by
  induction h
  case nil h => exact .nil h
  case cons cidx cidx' cs hlt hg r hi =>
    have hz := (Chain.cons hlt hg r).chainPerSector_ne_zero <| by simp
    refine .cons hlt ?_ <| hi fun c hc => hw c <| .tail _ hc
    rwa [fat32GetChain_word hz, hw cidx <| .head _, ← fat32GetChain_word hz]

-- The end mark of the last cluster is replaced by a further cluster.
theorem extend (hl : cs.getLast? = some c) (hw : ∀ d ∈ cs, d ≠ c → tableWord v' d.toNat = tableWord v d.toNat)
    (hc : tableWord v' c.toNat = n) (hn : n < chainEndFlag) (he : chainEndFlag ≤ tableWord v' n.toNat) :
    Chain v' cidx (cs ++ [n]) := by
  have hz := h.chainPerSector_ne_zero fun hn => by simp [hn] at hl
  have hlast := h.word_last hl
  induction h
  case nil => cases hl
  case cons cidx cidx' cs hlt hg r hi =>
    rw [fat32GetChain_word hz] at hg
    cases hg
    cases r
    case nil =>
      obtain rfl : cidx = c := by simpa using hl
      refine .cons hlt (fat32GetChain_word hz) ?_
      rw [hc]
      exact .cons hn (fat32GetChain_word hz) <| .nil he
    case cons cs hg' hlt' r' =>
      have hne : cidx ≠ c := fun h => absurd hlt' <| BitVec.not_lt.mpr <| h ▸ hlast
      refine .cons hlt (fat32GetChain_word hz) ?_
      rw [hw cidx (.head _) hne]
      exact hi (by simpa using hl) fun d hd => hw d <| .tail _ hd

omit h in
theorem of_append {ds : List Cidx} (h : Chain v cidx (ds ++ cs)) : ∃ cidx', Chain v cidx' cs := by
  induction ds generalizing cidx
  case nil => exact ⟨cidx, h⟩
  case cons hi =>
    cases h
    case cons r => exact hi r

omit h in
-- The word of a cluster which is not the last one.
theorem word_of_append {ds es : List Cidx} (h : Chain v cidx (ds ++ c :: n :: es)) :
    tableWord v c.toNat = n ∧ n < chainEndFlag := by
  have hz := h.chainPerSector_ne_zero <| by simp
  have ⟨_, r⟩ := of_append h
  cases r
  case cons hg r =>
    cases r
    case cons hlt _ _ =>
      rw [fat32GetChain_word hz] at hg
      exact ⟨Except.ok.inj hg, hlt⟩

end Chain
end

namespace Fat32Geometry

variable {g : Fat32Geometry} {v v' : Volume g.toFat32Fs} {b b' : Bio g.toFat32Fs} {start cur r n : Cidx}
  {cs : List Cidx} {fuel i : Nat}

-- The volume after the two changes of the table.
def linked (v : Volume g.toFat32Fs) (cur r : Cidx) : Volume g.toFat32Fs :=
  (v.setChain cur r).setChain r chainEndFlag

theorem div_lt (hi : i < g.secPerTable.toNat * g.chainPerSector) : i / g.chainPerSector < 2 ^ 32 :=
  (Nat.div_lt_of_lt_mul <| Nat.mul_comm .. ▸ hi).trans g.secPerTable.isLt

theorem tableWord_linked (hc : g.chainPerSector ≠ 0) (hi : i < g.secPerTable.toNat * g.chainPerSector) :
    tableWord (g.linked v cur r) i =
    if i = r.toNat then chainEndFlag else if i = cur.toNat then r else tableWord v i := by
  rw [linked, tableWord_setChain hc (div_lt hi), tableWord_setChain hc (div_lt hi)]

section

variable (w : b.Coherent v) (hn : 0 < g.bufNum)

include w hn

theorem fat32SetChainAuto_eq : ∃ b', b'.Coherent v ∧ g.fat32SetChainAuto fuel b cur =
    (g.fat32SearchAvailChain fuel cur).eval v >>= fun r => do
      let b ← fat32SetChain b' cur r
      let b ← fat32SetChain b r chainEndFlag
      return (r, b) := by
  have ⟨b', he, w'⟩ := w.run_prog hn (g.fat32SearchAvailChain fuel cur)
  refine ⟨b', w', ?_⟩
  rw [fat32SetChainAuto, he]
  cases (g.fat32SearchAvailChain fuel cur).eval v <;> rfl

theorem fat32SetChainAuto_ok (hc : g.chainPerSector ≠ 0) (h : (g.fat32SearchAvailChain fuel cur).eval v = .ok r) :
    ∃ b', g.fat32SetChainAuto fuel b cur = .ok (r, b') ∧ b'.Coherent (g.linked v cur r) := by
  have ⟨b₁, w₁, he⟩ := @fat32SetChainAuto_eq g v b cur fuel w hn
  have ⟨b₂, h₂, w₂⟩ := @Bio.Coherent.setChain _ v b₁ r cur w₁ hn hc
  have ⟨b₃, h₃, w₃⟩ := @Bio.Coherent.setChain _ _ b₂ chainEndFlag r w₂ hn hc
  refine ⟨b₃, ?_, w₃⟩
  rw [he, h]
  simp only [bind, Except.bind, h₂, h₃]
  rfl

theorem fat32SetChainAuto_eval (hc : g.chainPerSector ≠ 0) (h : g.fat32SetChainAuto fuel b cur = .ok (r, b')) :
    (g.fat32SearchAvailChain fuel cur).eval v = .ok r ∧ b'.Coherent (g.linked v cur r) := by
  cases he : (g.fat32SearchAvailChain fuel cur).eval v
  case error e =>
    have ⟨b₁, _, h₁⟩ := @fat32SetChainAuto_eq g v b cur fuel w hn
    rw [h₁, he] at h
    cases h
  case ok r' =>
    have ⟨b₁, h₁, w₁⟩ := fat32SetChainAuto_ok w hn hc he
    rw [h₁] at h
    cases h
    exact ⟨rfl, w₁⟩

end

namespace FileChain

variable (h : g.FileChain v start cs)

include h

-- No chain contains a free cluster, since its word would lead to cluster 0.
theorem not_free (hf : g.IsFree v n) : n ∉ cs := by
  intro hm
  have hz := hf.2
  have := h.chain.word_mem hm <| by rw [hz]; decide
  rw [hz] at this
  exact absurd (h.clusters 0 this).1 <| by decide

theorem isCluster_last (hl : cs.getLast? = some cur) : g.IsCluster cur :=
  h.clusters cur <| List.mem_of_getLast? hl

theorem chainPerSector_ne_zero (hl : cs.getLast? = some cur) : g.chainPerSector ≠ 0 :=
  h.chain.chainPerSector_ne_zero fun hn => by simp [hn] at hl

-- A cluster with an end mark is the last one.
theorem getLast?_of_mem (hm : cur ∈ cs) (he : chainEndFlag ≤ tableWord v cur.toNat) : cs.getLast? = some cur := by
  have ⟨ds, es, hs⟩ := List.append_of_mem hm
  cases es
  case nil => simp [hs]
  case cons c es =>
    have ⟨hw, hlt⟩ := Chain.word_of_append (hs ▸ h.chain)
    exact absurd hlt <| BitVec.not_lt.mpr <| hw ▸ he

end FileChain

theorem isFree_ne (hf : g.IsFree v n) (he : chainEndFlag ≤ tableWord v cur.toNat) : n ≠ cur := by
  rintro rfl
  rw [hf.2] at he
  exact absurd he <| by decide

-- A free cluster which the search returns becomes the last one of the chain.
theorem linked_extends (hc : g.chainPerSector ≠ 0) (he : chainEndFlag ≤ tableWord v cur.toNat) (hcur : g.IsCluster cur)
    (hf : g.IsFree v n) (hn : n < chainEndFlag) : g.Extends v (g.linked v cur n) cur n := by
  have hne := isFree_ne hf he
  have hlast : tableWord (g.linked v cur n) n.toNat = chainEndFlag := by
    rw [tableWord_linked hc hf.1.2, if_pos rfl]
  have hend : chainEndFlag ≤ tableWord (g.linked v cur n) n.toNat := hlast ▸ BitVec.le_refl _
  have hother {c : Cidx} (hc' : g.IsCluster c) (h₁ : c ≠ cur) (h₂ : c ≠ n) :
      tableWord (g.linked v cur n) c.toNat = tableWord v c.toNat := by
    rw [tableWord_linked hc hc'.2, if_neg <| BitVec.toNat_inj.not.mpr h₂, if_neg <| BitVec.toNat_inj.not.mpr h₁]
  constructor
  case free  => exact hf
  case last  => exact hend
  case words =>
    intro i hi h₁ h₂
    rw [tableWord_linked hc hi, if_neg h₂, if_neg h₁]
  case chain =>
    intro start cs h hl
    have hcn : tableWord (g.linked v cur n) cur.toNat = n := by
      rw [tableWord_linked hc hcur.2, if_neg <| BitVec.toNat_inj.not.mpr hne.symm, if_pos rfl]
    apply FileChain.mk
    case chain =>
      refine h.chain.extend hl (fun c hm h₁ => hother (h.clusters c hm) h₁ ?_) hcn hn hend
      exact fun h₂ => h.not_free hf <| h₂ ▸ hm
    case clusters =>
      intro c hm
      cases List.mem_append.mp hm
      case inl hm => exact h.clusters c hm
      case inr hm => exact List.mem_singleton.mp hm ▸ hf.1
  case chains =>
    intro start cs h hl
    refine ⟨h.chain.congr_words fun c hm => hother (h.clusters c hm) ?_ ?_, h.clusters⟩
    case refine_1 => exact fun h₁ => hl <| h.getLast?_of_mem (h₁ ▸ hm) he
    case refine_2 => exact fun h₂ => h.not_free hf <| h₂ ▸ hm

-- What the call meets if the property holds after it.
theorem isFree_of_linked (h : g.FileChain v start cs) (hl : cs.getLast? = some cur)
    (ha : g.HasFree v cur → ∃ n, g.Extends v (g.linked v cur r) cur n)
    (hn : ¬g.HasFree v cur → r = 0 ∧ ∀ i < g.secPerTable.toNat * g.chainPerSector,
      tableWord (g.linked v cur r) i = tableWord v i) :
    g.HasFree v cur ∧ g.IsFree v r ∧ r < chainEndFlag := by
  have hc := h.chainPerSector_ne_zero hl
  have hcur := h.isCluster_last hl
  have he := h.chain.word_last hl
  have hw := @tableWord_linked g v cur r cur.toNat hc hcur.2
  by_cases hf : g.HasFree v cur
  case neg =>
    have ⟨hr, hs⟩ := hn hf
    have hz : cur.toNat ≠ (0 : Cidx).toNat := fun hz => absurd (hz ▸ hcur.1) <| by decide
    rw [hs _ hcur.2, hr, if_neg hz, if_pos rfl] at hw
    rw [hw] at he
    exact absurd he <| by decide
  case pos =>
    have ⟨n, hx⟩ := ha hf
    have ⟨ds, hd⟩ := List.getLast?_eq_some_iff.mp hl
    have hx' := (hx.chain start cs h hl).chain
    rw [hd, List.append_assoc] at hx'
    have ⟨hwn, hlt⟩ := Chain.word_of_append hx'
    rw [hwn, if_pos rfl] at hw
    split_ifs at hw
    case pos => exact absurd hlt <| by rw [hw]; exact BitVec.lt_irrefl _
    case neg => exact ⟨hf, hw ▸ hx.free, hw ▸ hlt⟩

-- The call extends the chain only if the cluster to which the search comes happens to be free.
theorem fat32SetChainAuto_extends_iff (w : b.Coherent v) (hn : 0 < g.bufNum) (h : g.FileChain v start cs)
    (hl : cs.getLast? = some cur) : g.ExtendsChain b v cur ↔ g.FreeShifted v cur := by
  have hc := h.chainPerSector_ne_zero hl
  apply Iff.intro
  case mp =>
    rintro ⟨fuel, r, b', v', hr, w', ha, hu⟩
    have ⟨he, w''⟩ := fat32SetChainAuto_eval w hn hc hr
    cases w''.volume_unique w'
    have ⟨hf, hfr, hlt⟩ := isFree_of_linked h hl ha hu
    have hs := (fat32SearchAvailChain_iff hc).mp ⟨fuel, he⟩
    split_ifs at hs with hi
    case pos =>
      have ⟨i, hb, hrn⟩ := hs
      exact ⟨hf, hi, i, hb, r, hlt, hfr, hrn⟩
    case neg => exact absurd (hs ▸ hfr.1.1) <| by decide
  case mpr =>
    rintro ⟨hf, hi, i, hb, c, hlt, hfc, hcn⟩
    have ⟨fuel, he⟩ := (@fat32SearchAvailChain_iff g v cur c hc).mpr <| by rw [if_pos hi]; exact ⟨i, hb, hcn⟩
    have ⟨b', hr, w'⟩ := fat32SetChainAuto_ok w hn hc he
    refine ⟨fuel, c, b', _, hr, w', fun _ => ⟨c, ?_⟩, absurd hf⟩
    exact linked_extends hc (h.chain.word_last hl) (h.isCluster_last hl) hfc hlt

-- A file with the cluster 2. The words of the clusters from 4096 on consist of the byte `used`.
def oneFile (used : Byte) : Volume wideGeometry.toFat32Fs :=
  fun sidx k => if sidx = 32 ∧ k.val / 4 = 2 then 255 else if sidx = 64 then used else 0

theorem oneFile_wordAt {used b : Byte} {sidx : Sidx} {i : Nat} (hi : i < 128)
    (hb : (if sidx = 32 ∧ i = 2 then 255 else if sidx = 64 then used else 0) = b) :
    wordAt (oneFile used sidx) (4 * i) = b ++ b ++ b ++ b := by
  have hb (k : Nat) (hk : k < 4) : byteAt (oneFile used sidx) (4 * i + k) = b := by
    have hl : 4 * i + k < wideGeometry.bytePerSector := by
      have : wideGeometry.bytePerSector = 512 := rfl
      omega
    rw [byteAt, dif_pos hl, oneFile, show (4 * i + k) / 4 = i by omega]
    exact hb
  have h₀ := hb 0 (by decide)
  rw [Nat.add_zero] at h₀
  rw [wordAt, hb 3 (by decide), hb 2 (by decide), hb 1 (by decide), h₀]

theorem oneFile_word (used : Byte) : tableWord (oneFile used) 2 = 0xffffffff :=
  (@oneFile_wordAt used 255 32 2 (by decide) <| if_pos <| by decide).trans <| by decide

theorem oneFile_free {i : Nat} (hi : i % 128 ≠ 2) : tableWord (oneFile 0) i = 0 := by
  refine (@oneFile_wordAt 0 0 _ _ (Nat.mod_lt i <| by decide) ?_).trans <| by decide
  rw [if_neg fun h => hi h.2, ite_self]

theorem oneFile_used {i : Nat} (hi : i < 128) : tableWord (oneFile 255) (4096 + i) = 0xffffffff := by
  have hd : (4096 + i) / wideGeometry.chainPerSector + wideGeometry.reservedSecCnt = 64 := by
    have : (4096 + i) / 128 + 32 = 64 := by omega
    exact this
  rw [tableWord, hd]
  exact (@oneFile_wordAt 255 255 64 _ (Nat.mod_lt _ <| by decide) <| if_neg <| by simp).trans <| by decide

theorem oneFile_chain (used : Byte) : wideGeometry.FileChain (oneFile used) 2 [2] where
  chain := by
    refine .cons (by decide) (fat32GetChain_word <| by decide) <| .nil ?_
    have : tableWord (oneFile used) (BitVec.toNat (2 : Cidx)) = 0xffffffff := oneFile_word used
    rw [this]
    decide
  clusters c h := by
    rw [List.mem_singleton.mp h]
    exact ⟨by decide, by decide⟩

theorem oneFile_shifted : wideGeometry.FreeShifted (oneFile 0) 2 := by
  have hf : wideGeometry.IsFree (oneFile 0) 4099 := ⟨⟨by decide, by decide⟩, oneFile_free <| by decide⟩
  have hb : FirstBelow (oneFile 0 32) 2 3 := by
    refine ⟨by decide, lt_of_eq_of_lt (@oneFile_wordAt 0 0 32 3 (by decide) rfl) <| by decide, fun k _ h hk => ?_⟩
    rw [if_pos <| by decide] at h
    obtain rfl : k = 2 := by omega
    exact absurd (lt_of_eq_of_lt (oneFile_word 0).symm hk) <| by decide
  exact ⟨⟨4099, hf, by decide⟩, by decide, 3, hb, 4099, by decide, hf, by decide⟩

theorem oneFile_extends : ∃ b, wideGeometry.ExtendsChain b (oneFile 0) 2 :=
  have ⟨b, w⟩ := exists_coherent (oneFile 0)
  ⟨b, (fat32SetChainAuto_extends_iff w (by decide) (oneFile_chain 0) rfl).mpr oneFile_shifted⟩

-- Cluster 3 is free, but the file gets a cluster that is in use.
theorem oneFile_not_extends : ∃ b, b.Coherent (oneFile 255) ∧ wideGeometry.FileChain (oneFile 255) 2 [2] ∧
    ¬wideGeometry.ExtendsChain b (oneFile 255) 2 := by
  have ⟨b, w⟩ := exists_coherent (oneFile 255)
  refine ⟨b, w, oneFile_chain 255, ?_⟩
  rintro ⟨fuel, r, b', v', hr, w', ha, hu⟩
  have hc : wideGeometry.chainPerSector ≠ 0 := by decide
  have hs : Fat32.tableSidx wideGeometry.toFat32Fs 2 < wideGeometry.secPerTable := by decide
  have ⟨he, w''⟩ := fat32SetChainAuto_eval w (by decide) hc hr
  cases w''.volume_unique w'
  have ⟨_, hf, _⟩ := isFree_of_linked (oneFile_chain 255) rfl ha hu
  have h := (fat32SearchAvailChain_iff hc).mp ⟨fuel, he⟩
  rw [if_pos hs] at h
  have ⟨i, hb, hi⟩ := h
  have hl : i < 128 := hb.lt
  have hr : r.toNat = 4096 + i := by
    have hd : (BitVec.toNat (2 : Cidx) / wideGeometry.chainPerSector + wideGeometry.reservedSecCnt) *
        wideGeometry.chainPerSector = 4096 := rfl
    rw [hi, hd]
    omega
  have hz := hf.2
  rw [hr, oneFile_used hl] at hz
  exact absurd hz <| by decide

end Fat32Geometry
end Zgmos.Fat32
