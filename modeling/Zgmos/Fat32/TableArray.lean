import Zgmos.Fat32.Extend
import Zgmos.Fat32.Init

-- The file allocation table as an array that is accessed through the sector cache.

namespace Zgmos.Fat32

-- The sectors of the first copy of the table.
def Fat32Geometry.InTable (g : Fat32Geometry) (sidx : Sidx) : Prop :=
  ∃ k < g.secPerTable.toNat, sidx = .ofNat 32 (k + g.reservedSecCnt)

-- The operation names no sector with the property.
def Op.Outside {fs : Fat32Fs} (p : Sidx → Prop) : Op fs → Prop
  | read sidx          => ¬p sidx
  | write sidx _       => ¬p sidx
  | readCopy sidx _ _  => ¬p sidx
  | writeCopy sidx _ _ => ¬p sidx
  | flush              => True

section

variable {fs : Fat32Fs} {v v' : Volume fs} {p : Sidx → Prop} {op : Op fs} {ops : List (Op fs)} {sidx : Sidx}

-- The volumes agree on the sectors outside.
def AgreeOutside (p : Sidx → Prop) (v v' : Volume fs) : Prop :=
  ∀ sidx, ¬p sidx → v' sidx = v sidx

theorem AgreeOutside.update (h : AgreeOutside p v v') (d : Sector fs) :
    AgreeOutside p (Function.update v sidx d) (Function.update v' sidx d) := by
  intro s hs
  by_cases he : s = sidx
  case pos => subst he; simp
  case neg => simpa [he] using h s hs

namespace Op.Outside

theorem eval_inside (ho : op.Outside p) (hs : p sidx) : (op.eval v).2 sidx = v sidx := by
  have hne {s : Sidx} (h : ¬p s) : sidx ≠ s := fun he => h <| he ▸ hs
  cases op
  case write s _       => exact Function.update_of_ne (hne ho) ..
  case writeCopy s _ _ => exact Function.update_of_ne (hne ho) ..
  all_goals rfl

-- What the operation observes and changes depends on the sectors outside only.
theorem eval_outside (ho : op.Outside p) (h : AgreeOutside p v v') :
    (op.eval v').1 = (op.eval v).1 ∧ AgreeOutside p (op.eval v).2 (op.eval v').2 := by
  cases op
  case read s          => exact ⟨congrArg Obs.sector <| h s ho, h⟩
  case write s _       => simp only [Op.eval, h s ho]; exact ⟨trivial, h.update _⟩
  case readCopy s _ _  => simp only [Op.eval, h s ho]; exact ⟨trivial, h⟩
  case writeCopy s _ _ => simp only [Op.eval, h s ho]; exact ⟨trivial, h.update _⟩
  case flush           => exact ⟨rfl, h⟩

end Op.Outside

theorem Volume.eval_inside (ho : ∀ op ∈ ops, op.Outside p) (hs : p sidx) : (v.eval ops).2 sidx = v sidx := by
  induction ops generalizing v
  case nil            => rfl
  case cons op ops hi =>
    exact (hi fun op hm => ho op <| .tail _ hm).trans <| (ho op <| .head _).eval_inside hs

theorem Volume.eval_outside (ho : ∀ op ∈ ops, op.Outside p) (h : AgreeOutside p v v') :
    (v'.eval ops).1 = (v.eval ops).1 ∧ AgreeOutside p (v.eval ops).2 (v'.eval ops).2 := by
  induction ops generalizing v v'
  case nil            => exact ⟨rfl, h⟩
  case cons op ops hi =>
    have ⟨he, h⟩ := (ho op <| .head _).eval_outside h
    have ⟨he', h⟩ := hi (fun op hm => ho op <| .tail _ hm) h
    exact ⟨congrArg₂ _ he he', h⟩

end

namespace Fat32Geometry

variable {g : Fat32Geometry} {b : Bio g.toFat32Fs} {v : Volume g.toFat32Fs} {i j val : Cidx} {ops : List (Op g.toFat32Fs)}

theorem inTable_tableSidx (hi : i.toNat < g.secPerTable.toNat * g.chainPerSector) :
    g.InTable (Fat32.tableSidx g.toFat32Fs i) :=
  ⟨i.toNat / g.chainPerSector, Nat.div_lt_of_lt_mul <| Nat.mul_comm .. ▸ hi, rfl⟩

-- The table behaves as an array, whatever happens to the other sectors in between. These are not changed.
theorem getChain_setChain (w : b.Coherent v) (hn : 0 < g.bufNum)
    (hi : i.toNat < g.secPerTable.toNat * g.chainPerSector) (hj : j.toNat < g.secPerTable.toNat * g.chainPerSector)
    (ho : ∀ op ∈ ops, op.Outside g.InTable) :
    ∃ x b₁ b₂ b₃ b₄ v', (fat32GetChain j).run Bio.sector b = .ok (x, b₁) ∧
      fat32SetChain b₁ i val = .ok b₂ ∧
      b₂.run ops = .ok ((v.eval ops).1, b₃) ∧
      (fat32GetChain j).run Bio.sector b₃ = .ok (if i = j then val else x, b₄) ∧
      b₄.Coherent v' ∧ ∀ sidx, ¬g.InTable sidx → v' sidx = (v.eval ops).2 sidx := by
  have hc : g.chainPerSector ≠ 0 := by
    intro hc
    rw [hc, Nat.mul_zero] at hi
    exact Nat.not_lt_zero _ hi
  have ⟨b₁, h₁, w₁⟩ := w.run_of_eval hn (fat32GetChain_word (c := j) hc)
  have ⟨b₂, (h₂ : fat32SetChain b₁ i val = _), w₂⟩ := w₁.setChain hn hc
  have ⟨b₃, h₃, w₃, _⟩ := w₂.run hn ops
  have ⟨b₄, h₄, w₄⟩ := w₃.run_of_eval hn (fat32GetChain_word (c := j) hc)
  have ha : AgreeOutside g.InTable v (v.setChain i val) := fun sidx hs =>
    Function.update_of_ne (fun he : sidx = _ => hs <| he.symm ▸ inTable_tableSidx hi) ..
  have ⟨he, ha⟩ := Volume.eval_outside ho ha
  have hw : tableWord ((v.setChain i val).eval ops).2 j.toNat = if i = j then val else tableWord v j.toNat := by
    have hd : j.toNat / g.chainPerSector < 2 ^ 32 := (Nat.div_le_self ..).trans_lt j.isLt
    have hk := Volume.eval_inside (v := v.setChain i val) ho <| inTable_tableSidx hj
    have hs : tableWord ((v.setChain i val).eval ops).2 j.toNat = tableWord (v.setChain i val) j.toNat := by
      rw [tableWord, tableWord]
      exact congrArg (wordAt · _) hk
    rw [hs, tableWord_setChain hc hd]
    exact if_congr (BitVec.toNat_inj.trans eq_comm) rfl rfl
  exact ⟨_, b₁, b₂, b₃, b₄, _, h₁, h₂, he ▸ h₃, hw ▸ h₄, w₄, ha⟩

-- A table of two sectors with two words each, and one buffer.
def twoWords : Fat32Geometry where
  dsidx            := 2048
  bytePerSector    := 8
  secPerCluster    := 1
  reservedSecCnt   := 1
  rootCidx         := 2
  firstClusterSidx := 3
  bufNum           := 1
  fits             := by decide
  totalSector      := 10
  secPerTable      := 2
  tableNum         := 1
  tableSidx        := 1
  clusterNum       := 2

theorem not_inTable_five : ¬twoWords.InTable 5 := by
  intro ⟨k, hk, he⟩
  have : k < 2 := hk
  have he : (5 : Sidx) = .ofNat 32 (k + 1) := he
  rw [← BitVec.toNat_inj, BitVec.toNat_ofNat] at he
  have h5 : (5 : Sidx).toNat = 5 := rfl
  omega

-- The read of sector 5 evicts the sector of the table. Words 1 and 2 lie in different sectors.
theorem twoWords_getChain_setChain : ∃ b₂ b₃ b₄ : Bio twoWords.toFat32Fs,
    b₂.run [.read 5, .flush] = .ok ([.sector fun _ => 0, .done], b₃) ∧
      (fat32GetChain 1).run Bio.sector b₃ = .ok (7, b₄) ∧ ∃ v', b₄.Coherent v' ∧ v' 5 = fun _ => 0 := by
  have w := Bio.init_coherent (fun _ => 0) ⟨id, id⟩ fun (_ : Sidx) (_ : Fin twoWords.bytePerSector) => (0 : Byte)
  have ho : ∀ op ∈ ([.read 5, .flush] : List (Op twoWords.toFat32Fs)), op.Outside twoWords.InTable := by
    simpa [Op.Outside] using not_inTable_five
  have ⟨_, _, b₂, b₃, b₄, v', _, _, h₃, h₄, w', hv⟩ :=
    @getChain_setChain twoWords _ _ 1 1 7 _ w (by decide) (by decide) (by decide) ho
  exact ⟨b₂, b₃, b₄, h₃, h₄, v', w', hv 5 not_inTable_five⟩

theorem fat32Init_secPerTable {answers : Nat → Bool} {bpb : BootSector} {bufOrder : BitVec 8}
    (h : fat32Init answers bpb bufOrder = .ok (some g)) : g.secPerTable = .ofNat 32 bpb.fatSz32 := by
  simp only [fat32Init] at h
  split_ifs at h
  all_goals simp only [pure, Except.pure, Except.ok.injEq, Option.some.injEq, reduceCtorEq] at h
  subst h
  rfl

theorem setChain_init_error (hn : g.bufNum = 0) (hc : g.chainPerSector ≠ 0) (buf : Memory Byte) (l : Links BufNode)
    (disk : Sidx → Sector g.toFat32Fs) : fat32SetChain (Bio.init buf l disk) i val = .error .wildPointer := by
  have hl : (Bio.init buf l disk : Bio g.toFat32Fs).getLowActivity = .error .wildPointer := by
    simp [Bio.getLowActivity, Bio.init, hn, listInit]
  simp only [fat32SetChain, if_neg hc, Bio.write, Bio.access, Bio.buffered, Bio.matchBuffered, Bio.fetch,
    Bio.matchUnbuffered, hn, List.range_zero, List.find?_nil, hl]
  rfl

-- If the sectors are larger than the memory for the buffers, there is no buffer.
theorem noBuffer_not_setChain : ∃ g,
    fat32Init (fun _ => true) (bootSector [(12, 255), (13, 8), (36, 1)]) 1 = .ok (some g) ∧ 4 ∣ g.bytePerSector ∧
      (0 : Cidx).toNat < g.secPerTable.toNat * g.chainPerSector ∧
      ∀ buf l disk, fat32SetChain (Bio.init buf l disk : Bio g.toFat32Fs) 0 7 = .error .wildPointer := by
  have ⟨g, h⟩ : ∃ g, fat32Init (fun _ => true) (bootSector [(12, 255), (13, 8), (36, 1)]) 1 = .ok (some g) :=
    fat32Init_accepts (fun _ => rfl) (by decide) (by decide) (by decide)
  have ⟨hb, _, hn, _⟩ := fat32Init_eq_some h
  have hs := fat32Init_secPerTable h
  have hb : g.bytePerSector = 65280 := hb.trans <| by decide
  have hc : g.chainPerSector = 16320 := by rw [Fat32Fs.chainPerSector, hb]
  have hn : g.bufNum = 0 := hn.trans <| by decide
  refine ⟨g, h, by rw [hb]; decide, ?_, setChain_init_error hn (by rw [hc]; decide)⟩
  rw [hs, hc]
  decide

end Fat32Geometry
end Zgmos.Fat32
