import Zgmos.Process.Cleanup
import Zgmos.Fs.Chunks

-- The loader as a whole.

namespace Zgmos.Process

open Pte

namespace Image

variable (image : Image)

-- The file has a header which the loader accepts.
def Valid : Prop :=
  ehdrSize ≤ image.size.toNat ∧ taskAuxCheckElf image.header = true

instance : Decidable image.Valid :=
  inferInstanceAs <| Decidable (_ ∧ _)

-- The program headers that are read.
def phdrs : List Phdr :=
  if image.Valid then image.phdrsFrom image.header.phoff image.header.phnum.toNat else []

-- The file is loaded.
def Loads : Prop :=
  image.Valid ∧ image.phdrs.length = image.header.phnum.toNat ∧ allLoaded image image.phdrs = true

instance : Decidable image.Loads :=
  inferInstanceAs <| Decidable (_ ∧ _ ∧ _)

end Image

def fixedVas : List Word :=
  [procVaTrampoline, procVaTrapframe, procVaUstack]

-- The segments are such that only their own pages are visited.
def Image.Sound (image : Image) : Prop :=
  ∀ phdr ∈ loadedSegments image image.phdrs, phdr.Sound image

-- No page is visited twice, and none is one of the fixed pages.
def Image.Separate (image : Image) : Prop :=
  ((fixedVas ++ (placesOf image image.phdrs).map placePage).map pageNumber).Nodup

instance {image : Image} : Decidable image.Sound :=
  inferInstanceAs <| Decidable (∀ phdr ∈ loadedSegments image image.phdrs, phdr.Sound image)

instance {image : Image} : Decidable image.Separate :=
  inferInstanceAs <| Decidable (List.Nodup _)

-- The state in which `task_create` begins to load the image, with the pages that it has allocated.
structure Begun (pmem : Nat → Word) (uvecStart tfp ustackPa kstackPa : Word) (s : TaskState) : Prop where
  created : Created pmem uvecStart tfp ustackPa s
  nodup   : [ustackPa, kstackPa, tfp].Nodup
  live    : ∀ t ∈ [ustackPa, kstackPa, tfp], t ∈ s.live ∧ t ∉ Pte.tables s.mem s.task.userPte

variable {Obj Buffers : Type} {F : Space} {p x o epc uvecStart tfp ustackPa kstackPa va : Word} {pmem : Nat → Word}
  {s₀ s s' : TaskState} {m n fuel : Nat} {image : Image} {data : Word → Byte} {es : List Entry} {visits : List Visit}
  {σ σ' : LoadState Obj Buffers} {loader : Loader Buffers} {own : Word → Prop} {a : BitVec 39} {entry : Option Word}

section Images

theorem fixedSpace_eq_none : fixedSpace uvecStart tfp ustackPa (va.setWidth 39) = none ↔
    pageNumber va ∉ fixedVas.map pageNumber := by
  rw [fixedSpace, map_eq_none rfl, map_eq_none rfl, map_eq_none rfl, pageNumber_setWidth]
  simp only [fixedVas, List.map_cons, List.map_nil, List.mem_cons, List.not_mem_nil, or_false, not_or]
  tauto

theorem apart_fixedSpace_iff {vas : List Word} :
    Apart (fixedSpace uvecStart tfp ustackPa) vas ↔ ((fixedVas ++ vas).map pageNumber).Nodup := by
  have hd : (fixedVas.map pageNumber).Nodup := by decide
  rw [List.map_append, List.nodup_append]
  constructor
  case mp =>
    intro h
    refine ⟨hd, h.nodup, fun i hi j hj he => ?_⟩
    have ⟨va, hm, hv⟩ := List.mem_map.mp hj
    exact fixedSpace_eq_none.mp (h.free va hm) <| hv ▸ he ▸ hi
  case mpr =>
    intro ⟨_, hn, hf⟩
    exact ⟨hn, fun va hm => fixedSpace_eq_none.mpr fun hc => hf _ hc _ (List.mem_map_of_mem hm) rfl⟩

theorem fixedSpace_ne_none : fixedSpace uvecStart tfp ustackPa (procVaTrampoline.setWidth 39) ≠ none :=
  fixedSpace_eq_none.not.mpr <| not_not.mpr <| by simp [fixedVas]

theorem length_phdrs (h : image.Valid) :
    image.phdrs.length = image.reached image.header.phoff image.header.phnum.toNat := by
  rw [Image.phdrs, if_pos h, Image.phdrsFrom, List.length_map, List.length_range]

end Images

section Translation

theorem space_of_mem {e : Entry} (hd : (es.map (pageNumber ·.page.va)).Nodup) (hm : e ∈ es)
    (he : pageNumber e.page.va = pageNumber (a.setWidth 64)) : space F es a = some e.mapping := by
  induction es using List.reverseRecOn
  case nil => exact absurd hm List.not_mem_nil
  case append_singleton es e' hi =>
    rw [List.map_append, List.nodup_append] at hd
    rw [space_concat, Space.map]
    cases List.mem_append.mp hm
    case inl hm =>
      have hn : ¬SamePage .page4K (e'.page.va.setWidth 39) a := fun hc => by
        refine hd.2.2 _ (List.mem_map_of_mem hm) _ List.mem_cons_self ?_
        exact he.trans (samePage_iff_pageNumber.mp hc).symm
      exact (if_neg hn).trans <| hi hd.1 hm
    case inr hm =>
      cases List.mem_singleton.mp hm
      exact if_pos <| samePage_iff_pageNumber.mpr he

theorem and_mask_setWidth {k : Nat} (hk : k ≤ 39) :
    va &&& allOneMask k = (va.setWidth 39).setWidth 64 &&& allOneMask k := by
  apply BitVec.eq_of_getLsbD_eq
  intro i hi
  rw [BitVec.getLsbD_and, BitVec.getLsbD_and, getLsbD_allOneMask (by omega) hi]
  by_cases h : i < k
  case pos => simp [h, show i < 39 by omega, hi]
  case neg => simp [h]

theorem translation_setWidth {mem : Mem} : translation mem p va = translation mem p ((va.setWidth 39).setWidth 64) := by
  have hb (size : PageSize) : size.bits ≤ 39 := by cases size <;> decide
  rw [translation, translation, ← pteWalk_setWidth, and_mask_setWidth (hb _)]

-- Where the byte of a page is.
theorem Loaded.translation_eq {e : Entry} (l : Loaded F p s₀ es s) (hm : e ∈ es)
    (he : pageNumber e.page.va = pageNumber va) :
    translation s.mem p va = some (e.page.pa + .ofNat 64 (va.toNat % pageSize), taskAuxMapFlags e.phdr.flags) := by
  have hd := l.apart.nodup
  rw [List.map_map] at hd
  have hs := space_of_mem (F := F) hd hm <| he.trans pageNumber_setWidth.symm
  rw [translation_setWidth, l.maps.translation_eq, hs, Option.map_some]
  have hk : va &&& allOneMask 12 = .ofNat 64 (va.toNat % pageSize) := by
    rw [← BitVec.toNat_inj, toNat_and_mask, BitVec.toNat_ofNat, pageSize]
    omega
  have hf : e.mapping.size = .page4K := rfl
  rw [hf, PageSize.bits, ← and_mask_setWidth (by decide), hk]
  exact congrArg some <| Prod.ext (congrArg (· + _) (l.entries e hm).2) rfl

theorem mem_loadedSegments {phdr : Phdr} {phdrs : List Phdr} (h : allLoaded image phdrs = true) (hm : phdr ∈ phdrs)
    (ht : phdr.type = ptLoad) : phdr ∈ loadedSegments image phdrs ∧ phdr.Accepted ∧ phdr.cutOff image = none := by
  have ⟨l₁, l₂, he⟩ := List.append_of_mem hm
  have hc : phdr :: l₂ = [phdr] ++ l₂ := rfl
  rw [he, hc, allLoaded_append, allLoaded_append, Bool.and_eq_true, Bool.and_eq_true] at h
  have hp : phdr.Accepted ∧ (phdr.cutOff image).isNone := by simpa [allLoaded, ht] using h.2.1
  refine ⟨?_, hp.1, Option.isNone_iff_eq_none.mp hp.2⟩
  rw [he, hc, loadedSegments_append, if_pos h.1, loadedSegments_append, (loadedSegments_accept image ht hp.1).1]
  simp

-- The page of an address of a segment.
theorem Phdr.place_of_range {phdr : Phdr} {a : Nat} (hs : phdr.Sound image) (hc : phdr.cutOff image = none)
    (h₁ : phdr.vaddr.toNat ≤ a) (h₂ : a < phdr.vaddr.toNat + phdr.memsz.toNat) :
    a / pageSize - phdr.firstPage < phdr.visited image ∧
      pageNumber (phdr.page (a / pageSize - phdr.firstPage)) = pageNumber (.ofNat 64 a) ∧
      let pos := (a / pageSize - phdr.firstPage) * pageSize + a % pageSize
      phdr.vaddr.toNat % pageSize ≤ pos ∧ pos - phdr.vaddr.toNat % pageSize = a - phdr.vaddr.toNat := by
  have hr : phdr.Regular := hs.resolve_right fun h => by simp [hc] at h
  have hz : phdr.memsz ≠ 0 := fun hz => by
    have : phdr.memsz.toNat = 0 := congrArg BitVec.toNat hz
    omega
  have hend := hr.2 hz
  have hpage : (phdr.page (a / pageSize - phdr.firstPage)).toNat = a / pageSize * pageSize := by
    have hlt : phdr.firstPage + (a / pageSize - phdr.firstPage) < 2 ^ 52 := by
      simp only [firstPage, pageSize] at *
      omega
    rw [toNat_page hlt]
    simp only [firstPage, pageSize] at *
    omega
  refine ⟨?_, ?_, ?_⟩
  case refine_1 =>
    rw [visited, hc]
    simp only [pageCount, if_neg hz, firstPage, pageSize]
    omega
  case refine_2 =>
    rw [← BitVec.toNat_inj, pageNumber, pageNumber, BitVec.extractLsb'_toNat, BitVec.extractLsb'_toNat, hpage]
    simp only [BitVec.toNat_ofNat, Nat.shiftRight_eq_div_pow, pageSize] at *
    omega
  case refine_3 =>
    simp only [firstPage, pageSize]
    omega

section Segments

variable {σ₀ σ₁ : TaskState} (l : Loaded (fixedSpace uvecStart tfp ustackPa) p σ₀ es σ₁)
  (hplaces : es.map Entry.place = placesOf image image.phdrs)

include l hplaces

-- An address of a segment is translated to the page of one of the entries.
theorem Loaded.exists_entry {phdr : Phdr} {a : Nat} (hs : image.Sound) (hy : image.Loads) (hmem : phdr ∈ image.phdrs)
    (ht : phdr.type = ptLoad) (h₁ : phdr.vaddr.toNat ≤ a) (h₂ : a < phdr.vaddr.toNat + phdr.memsz.toNat) :
    ∃ e ∈ es, translation σ₁.mem p (.ofNat 64 a) =
        some (e.page.pa + .ofNat 64 (a % pageSize), taskAuxMapFlags phdr.flags) ∧ Aligned e.page.pa ∧
      ∀ data, e.content image data (a % pageSize) =
        if a - phdr.vaddr.toNat < phdr.filesz.toNat then image.content (phdr.offset.toNat + (a - phdr.vaddr.toNat))
        else data (e.page.pa + .ofNat 64 (a % pageSize)) := by
  obtain ⟨hl, _, hc⟩ := mem_loadedSegments hy.2.2 hmem ht
  obtain ⟨hi, hn, hr⟩ := Phdr.place_of_range (hs phdr hl) hc h₁ h₂
  have hp : (phdr, a / pageSize - phdr.firstPage) ∈ es.map Entry.place := by
    rw [hplaces]
    exact List.mem_flatMap.mpr ⟨phdr, hl, List.mem_map.mpr ⟨_, by simpa using hi, rfl⟩⟩
  obtain ⟨e, hm, hpl⟩ := List.mem_map.mp hp
  have hphdr : e.phdr = phdr := congrArg Prod.fst hpl
  have hindex : e.index = a / pageSize - phdr.firstPage := congrArg Prod.snd hpl
  obtain ⟨hva, hpa⟩ := l.entries e hm
  have hmod : (BitVec.ofNat 64 a).toNat % pageSize = a % pageSize := by
    rw [BitVec.toNat_ofNat, pageSize]
    omega
  refine ⟨e, hm, ?_, hpa, fun data => ?_⟩
  case refine_1 =>
    rw [← hphdr, ← hmod]
    refine l.translation_eq hm ?_
    rw [hva, hphdr, hindex]
    exact hn
  case refine_2 =>
    rw [Entry.content, hphdr, hindex]
    simp only [hr.1, hr.2, true_and]

-- Only the fixed pages and those of the segments are mapped.
theorem Loaded.mapped_iff : translation σ₁.mem p va ≠ none ↔
    pageNumber va ∈ (fixedVas ++ (placesOf image image.phdrs).map placePage).map pageNumber := by
  have hv : es.map (pageNumber ·.page.va) = ((placesOf image image.phdrs).map placePage).map pageNumber := by
    rw [← hplaces, ← l.vas_eq, List.map_map]
    rfl
  rw [translation_setWidth, ne_eq, l.maps.translation_eq_none, space_eq_none, fixedSpace_eq_none, hv,
    pageNumber_setWidth, List.map_append, List.mem_append]
  tauto

end Segments

end Translation

namespace Begun

section State

variable (b : Begun pmem uvecStart tfp ustackPa kstackPa s)

include b

theorem tables_live (t : Word) (h : t ∈ Pte.tables s.mem s.task.userPte) : t ∈ s.live :=
  b.created.inv.books.tables t h

theorem maps : Maps s.mem s.task.userPte (fixedSpace uvecStart tfp ustackPa) := by
  have ⟨mem, ts, hc, hm, d, _⟩ := b.created.table
  exact hm ▸ (taskCreateTable_maps b.created.task.1 hc d).1

theorem loaded (hx : x ∉ s.live) (ho : o ∉ s.objects) :
    Loaded (fixedSpace uvecStart tfp ustackPa) s.task.userPte { s with live := x :: s.live, objects := o :: s.objects } []
      { s with live := x :: s.live, objects := o :: s.objects } where
  userPte := rfl
  pages   := b.created.task.2.1
  entries := by simp
  apart   := ⟨List.nodup_nil, by simp⟩
  maps    := b.maps
  tables  := fun t h => List.mem_cons_of_mem _ <| b.tables_live t h
  live    := ⟨List.nodup_cons.mpr ⟨hx, b.created.live⟩, [], .refl _, Nat.zero_le _, by simp⟩
  objects := ⟨List.nodup_cons.mpr ⟨ho, b.created.objects⟩, rfl⟩

end State

variable (b : Begun pmem uvecStart tfp ustackPa kstackPa σ.state) (hv : Serving loader own image σ.kernel)
  (hl : σ.kernel.locked = false) (hE : Enough loader.alloc own (σ.state.used + 2) m)

include b hv hl hE

omit b hv hl in
theorem enough_add (x o : Word) :
    Enough loader.alloc own { σ.state with live := x :: σ.state.live, objects := o :: σ.state.objects }.used m := by
  have h : { σ.state with live := x :: σ.state.live, objects := o :: σ.state.objects }.used = σ.state.used + 2 := by
    simp only [TaskState.used, List.length_cons]
    omega
  exact h ▸ hE

variable (fuel) in
-- The header of the file is read and checked.
theorem taskCreateLoad_run :
    (¬image.Valid → ∃ σ', (taskCreateLoad loader fuel ustackPa kstackPa tfp).run σ = (.ok ([], none), σ') ∧
      Freed [ustackPa, kstackPa, tfp] σ.state σ'.state) ∧
    (image.Valid → ∃ x kernel, x ∉ σ.state.live ∧ loader.alloc.kmalloc σ.state ∉ σ.state.objects ∧
      let s₂ := { σ.state with live := x :: σ.state.live, objects := loader.alloc.kmalloc σ.state :: σ.state.objects }
      let data := image.readInto 0 (loader.alloc.kmalloc σ.state) (.ofNat 64 ehdrSize) σ.kernel.mem
      Ready loader own (fixedSpace uvecStart tfp ustackPa) σ.state.task.userPte s₂ x image data [] ⟨s₂, kernel⟩ ∧
      (taskCreateLoad loader fuel ustackPa kstackPa tfp).run σ = (do
        let (visits, ok) ← loadBatches loader x image.header.phnum.toNat fuel fuel image.header.phoff 0
        afterLoad (loader.alloc.kmalloc σ.state) x image.header.entry ustackPa kstackPa tfp visits ok :
          LoadM Obj Buffers (List Visit × Option Word)).run ⟨s₂, kernel⟩) := by
  have w := hE σ.state <| by omega
  have w₁ := hE { σ.state with objects := loader.alloc.kmalloc σ.state :: σ.state.objects } <| by
    simp only [TaskState.used, List.length_cons]
    omega
  obtain ⟨kernel, hr, hserving, hlocked, hmem⟩ :
      ∃ kernel, (vfsRead loader 0 (loader.alloc.kmalloc σ.state) (.ofNat 64 ehdrSize)).run
        { σ with state := { σ.state with objects := loader.alloc.kmalloc σ.state :: σ.state.objects } } = _ ∧ _ :=
    vfsRead_run hv hl w.object.2.2
  have hd : image.delivered 0 (.ofNat 64 ehdrSize) = .ofNat 64 ehdrSize ↔ ehdrSize ≤ image.size.toNat :=
    (Phdr.delivered_eq_iff <| by decide).trans <| by simp [ehdrSize]
  have hh (h : ehdrSize ≤ image.size.toNat) : ehdrAt kernel.mem (loader.alloc.kmalloc σ.state) = image.header :=
    ehdrAt_congr fun k hk => (hmem _ <| w.object.2.2 k hk).trans <| readInto_bytes (by simpa using h) hk
  unfold taskCreateLoad
  rw [ExceptT.run_bind_ok load_get_run, if_neg w.object.1, ExceptT.run_bind_ok <| onTask_run <| modify_run _]
  constructor
  case left =>
    intro hn
    obtain ⟨live', he, hnd, hm⟩ := afterUstack_run b.maps.tree b.nodup (fun t ht => (b.live t ht).1) b.created.live
    have hf : (afterEhdr (loader.alloc.kmalloc σ.state) ustackPa kstackPa tfp).run
        { σ.state with objects := loader.alloc.kmalloc σ.state :: σ.state.objects } =
        (.ok (), { σ.state with live := live' }) := by
      refine (ExceptT.run_bind_ok <| kfree_run List.mem_cons_self).trans ?_
      rw [List.erase_cons_head]
      exact he
    have hc : image.delivered 0 (.ofNat 64 ehdrSize) ≠ .ofNat 64 ehdrSize ∨
        (!taskAuxCheckElf (ehdrAt kernel.mem (loader.alloc.kmalloc σ.state))) = true := by
      by_cases hle : ehdrSize ≤ image.size.toNat
      case pos =>
        refine .inr ?_
        rw [hh hle]
        simpa using not_and.mp hn hle
      case neg => exact .inl <| hd.not.mpr hle
    refine ⟨⟨{ σ.state with live := live' }, kernel⟩,
      (ExceptT.run_bind_ok hr).trans <| (ExceptT.run_bind_ok load_get_run).trans ?_, ?_⟩
    case refine_1 =>
      simp only
      rw [if_pos hc, ExceptT.run_bind_ok <| onTask_run hf]
      rfl
    case refine_2 => exact ⟨b.created.task.2.1, ⟨hnd, hm⟩, rfl⟩
  case right =>
    rintro ⟨hle, hcheck⟩
    obtain ⟨hx, hax, hnx, hox⟩ := w₁.page 0 <| by decide
    have hc : ¬(image.delivered 0 (.ofNat 64 ehdrSize) ≠ .ofNat 64 ehdrSize ∨
        (!taskAuxCheckElf (ehdrAt kernel.mem (loader.alloc.kmalloc σ.state))) = true) := by
      rw [hh hle, hcheck, not_or]
      exact ⟨not_not.mpr <| hd.mpr hle, by decide⟩
    have hu : kernel.locked = false :=
      hlocked.trans <| decide_eq_false <| Phdr.lt_of_delivered (by decide) <| hd.mpr hle
    have l := b.loaded hnx w.object.2.1
    refine ⟨_, kernel, hnx, w.object.2.1,
      ⟨l, hserving, hu, ⟨hax, List.mem_cons_self, hox⟩, by simp, by simp, fun a ho _ => hmem a ho⟩, ?_⟩
    refine (ExceptT.run_bind_ok hr).trans <| (ExceptT.run_bind_ok load_get_run).trans ?_
    simp only
    rw [if_neg hc, hh hle]
    refine (ExceptT.run_bind_ok load_get_run).trans ?_
    simp only
    rw [if_neg hx, ExceptT.run_bind_ok <| onTask_run <| modify_run _]

omit hv hl hE in
-- The end of the loader.
theorem afterLoad_run (n : Nat) (epc : Word) {σ₃ : LoadState Obj Buffers} {ok whole : Bool} {phdrs : List Phdr}
    (w : Walked loader own (fixedSpace uvecStart tfp ustackPa) σ.state.task.userPte
      { σ.state with live := x :: σ.state.live, objects := o :: σ.state.objects } x image data phdrs whole
        [] visits ok es σ₃)
    (hx : x ∉ σ.state.live) (hw : whole = true ↔ phdrs.length = n) : ∃ entry σ',
      (afterLoad o x epc ustackPa kstackPa tfp visits ok).run σ₃ = (.ok (visits, entry), σ') ∧
      (entry = none ∧ ¬(phdrs.length = n ∧ allLoaded image phdrs = true) ∧ Freed [ustackPa, kstackPa, tfp] σ.state σ'.state ∨
        entry = some epc ∧ (phdrs.length = n ∧ allLoaded image phdrs = true) ∧ σ'.kernel.locked = false ∧
        Loaded (fixedSpace uvecStart tfp ustackPa) σ.state.task.userPte σ.state es σ'.state ∧
        (∀ e ∈ es, ∀ k < pageSize, ¬own (e.page.pa + .ofNat 64 k) ∧
          σ'.kernel.mem (e.page.pa + .ofNat 64 k) = e.content image data k) ∧
        Kept own x es data σ'.kernel.mem) := by
  have hst := w.status
  cases ok
  case false =>
    have ⟨_, _, _, h₁, h₂, h₃, hf⟩ := w.loaded.fail_run hx b.tables_live rfl b.nodup b.live
    refine ⟨_, _, (ExceptT.run_bind_ok <| onTask_run h₁).trans <| (ExceptT.run_bind_ok <| onTask_run h₂).trans <|
      ExceptT.run_bind_ok <| onTask_run h₃, .inl ⟨rfl, fun hc => ?_, hf⟩⟩
    rw [hc.2, hw.mpr hc.1] at hst
    cases hst
  case true =>
    have y := w.ready rfl
    have ⟨h₁, h₂, l⟩ := w.loaded.finish hx b.tables_live
    have ⟨ha, hw'⟩ := Bool.and_eq_true_iff.mp hst.symm
    exact ⟨_, _, (ExceptT.run_bind_ok <| onTask_run <| pmemFree_run h₁).trans <|
      ExceptT.run_bind_ok <| onTask_run <| kfree_run h₂,
      .inr ⟨rfl, ⟨hw.mp hw', ha⟩, y.unlocked, l, fun e he k hk => ⟨y.outside e he k hk, y.filled e he k hk⟩, y.kept⟩⟩

variable (hm : m = min (pageNeed image.phdrs) (2 ^ 27))

include hm

-- What a loader that has returned has done.
theorem outcome (h : (taskCreateLoad loader fuel ustackPa kstackPa tfp).run σ = (.ok (visits, entry), σ'))
    (hx : ∀ v ∈ visits, v.Exact) :
    image.Sound ∧ image.Separate ∧ visits = (loadedSegments image image.phdrs).map (visitOf image) ∧
      (entry = none ∧ ¬image.Loads ∧ Freed [ustackPa, kstackPa, tfp] σ.state σ'.state ∨
        entry = some image.header.entry ∧ image.Loads ∧ σ'.kernel.locked = false ∧
        ∃ x es, x ∉ σ.state.live ∧ es.map Entry.place = placesOf image image.phdrs ∧
          Loaded (fixedSpace uvecStart tfp ustackPa) σ.state.task.userPte σ.state es σ'.state ∧
          let data := image.readInto 0 (loader.alloc.kmalloc σ.state) (.ofNat 64 ehdrSize) σ.kernel.mem
          (∀ e ∈ es, ∀ k < pageSize, ¬own (e.page.pa + .ofNat 64 k) ∧
          σ'.kernel.mem (e.page.pa + .ofNat 64 k) = e.content image data k) ∧
          Kept own x es data σ'.kernel.mem) := by
  subst hm
  obtain ⟨hinvalid, hvalid⟩ := b.taskCreateLoad_run fuel hv hl hE
  by_cases hv : image.Valid
  case neg =>
    obtain ⟨_, he, hf⟩ := hinvalid hv
    cases h.symm.trans he
    have hp : image.phdrs = [] := if_neg hv
    have hs : loadedSegments image image.phdrs = [] := by rw [hp]; rfl
    have hpl : placesOf image image.phdrs = [] := by rw [placesOf, hs]; rfl
    refine ⟨?_, ?_, by rw [hs]; rfl, .inl ⟨rfl, fun hc => hv hc.1, hf⟩⟩
    case refine_1 =>
      rw [Image.Sound, hs]
      exact fun _ hm => absurd hm List.not_mem_nil
    case refine_2 =>
      rw [Image.Separate, hpl]
      decide
  case pos =>
    obtain ⟨x, kernel, hnx, hno, y, he⟩ := hvalid hv
    have hp : image.phdrs = image.phdrsFrom image.header.phoff image.header.phnum.toNat := if_pos hv
    rw [he] at h
    obtain ⟨⟨visits', ok⟩, σ₃, h₁, h⟩ := ExceptT.run_bind_eq_ok.mp h
    have hvis : visits' = visits := by
      cases ok
      case false =>
        obtain ⟨_, _, _, h⟩ := ExceptT.run_bind_eq_ok.mp h
        obtain ⟨_, _, _, h⟩ := ExceptT.run_bind_eq_ok.mp h
        obtain ⟨_, _, _, h⟩ := ExceptT.run_bind_eq_ok.mp h
        cases h
        rfl
      case true =>
        obtain ⟨_, _, _, h⟩ := ExceptT.run_bind_eq_ok.mp h
        obtain ⟨_, _, _, h⟩ := ExceptT.run_bind_eq_ok.mp h
        cases h
        rfl
    subst hvis
    obtain ⟨es, w⟩ := y.loadBatches_walked (m := pageNeed image.phdrs) (enough_add hE _ _) paged_fixedSpace fixedSpace_ne_none
      (by rw [hp]; simp) (Nat.zero_add _) h₁ hx
    rw [← hp] at w
    have hplaces : es.map Entry.place = placesOf image image.phdrs := w.places
    have hap := w.loaded.apart
    rw [w.loaded.vas_eq, hplaces, apart_fixedSpace_iff] at hap
    refine ⟨w.sound, hap, w.trace, ?_⟩
    obtain ⟨entry', _, he', ho⟩ := b.afterLoad_run image.header.phnum.toNat image.header.entry w hnx <| by
      rw [length_phdrs hv, decide_eq_true_iff]
    cases h.symm.trans he'
    cases ho
    case inl ho => exact .inl ⟨ho.1, fun hc => ho.2.1 hc.2, ho.2.2⟩
    case inr ho =>
      obtain ⟨h₁, h₂, h₃, l, hf, hk⟩ := ho
      exact .inr ⟨h₁, ⟨hv, h₂⟩, h₃, x, es, hnx, hplaces, l, hf, hk⟩

omit hm

theorem returns (hm : m = min (pageNeed image.phdrs) (2 ^ 27)) (hfuel : 2 ^ 27 ≤ fuel) (hs : image.Sound)
    (ha : image.Separate) :
    ∃ visits entry σ', (taskCreateLoad loader fuel ustackPa kstackPa tfp).run σ = (.ok (visits, entry), σ') ∧
      ∀ v ∈ visits, v.Exact := by
  subst hm
  have ⟨hinvalid, hvalid⟩ := b.taskCreateLoad_run fuel hv hl hE
  by_cases hv : image.Valid
  case neg =>
    have ⟨_, he, _⟩ := hinvalid hv
    exact ⟨_, _, _, he, fun _ hm => absurd hm List.not_mem_nil⟩
  case pos =>
    have ⟨x, kernel, hnx, _, y, he⟩ := hvalid hv
    have hp : image.phdrs = image.phdrsFrom image.header.phoff image.header.phnum.toNat := if_pos hv
    have hlt : image.header.phnum.toNat < fuel := image.header.phnum.isLt.trans_le <| hfuel.trans' <| by decide
    rw [Image.Sound, hp] at hs
    rw [Image.Separate, hp] at ha
    have ⟨visits, ok, σ₃, h₁, hx⟩ := y.loadBatches_run (m := pageNeed image.phdrs) (enough_add hE _ _) paged_fixedSpace
      fixedSpace_ne_none (by rw [hp]; simp) (Nat.zero_add _) hfuel hlt hs (apart_fixedSpace_iff.mpr ha)
    have ⟨es, w⟩ := y.loadBatches_walked (m := pageNeed image.phdrs) (enough_add hE _ _) paged_fixedSpace fixedSpace_ne_none
      (by rw [hp]; simp) (Nat.zero_add _) h₁ hx
    have ⟨entry, σ', he', _⟩ := b.afterLoad_run image.header.phnum.toNat image.header.entry w hnx <| by
      rw [← hp, length_phdrs hv, decide_eq_true_iff]
    exact ⟨visits, entry, σ', he.trans <| (ExceptT.run_bind_ok h₁).trans he', hx⟩

end Begun

-- The loader for a file whose blocks are read with `read`. The buffer of a block is at its address.
def Loader.ofBlocks (alloc : Allocator) (read : Fs.ReadBlock) (addr : Nat → Word) (device : Fs.DeviceBytes)
    (image : Fs.Node) : Loader Fs.Blocks where
  alloc  := alloc
  access := Fs.Blocks.accessBytes read addr
  device := device
  image  := image

-- The file is not a device, and there are buffers for its blocks next to those which are in use.
structure Opened (history : Fs.History) (read : Fs.ReadBlock) (node : Fs.Node) (image : Image)
    (s : Fs.Kernel Obj Fs.Blocks) : Prop where
  file    : (s.files.vfs.nodes node).type ≠ .dev
  size    : (s.files.vfs.nodes node).size = image.size
  content : Fs.Reads read node image.size.toNat image.content
  linked  : history.files node
  past    : ∀ a ∈ history.past, history.files a.1
  buffers : history.buffers read = .ok s.buffers
  room    : (history.past.map Fs.Access.key ++ Fs.byteBlocks node 0 image.size.toNat).dedup.length ≤ Fs.bufferMax.toNat
  free    : s.locked = false

theorem Opened.serving {history : Fs.History} {read : Fs.ReadBlock} {node : Fs.Node} {s : Fs.Kernel Obj Fs.Blocks}
    (w : Opened history read node image s) (alloc : Allocator) (addr : Nat → Word) (device : Fs.DeviceBytes) :
    Serving (.ofBlocks alloc read addr device node) (Fs.pagesOf addr Fs.bufferMax) image s := by
  obtain ⟨hk, ht, hl⟩ := Fs.History.keeps w.past w.buffers
  refine ⟨w.file, w.size, _, Fs.Blocks.Keeps.serves addr w.content le_rfl image.size.isLt.le w.room ?_, ?_⟩
  case refine_1 => exact List.subset_append_right ..
  case refine_2 => exact ⟨_, hk, List.subset_append_left .., ht, (hl node).trans w.linked⟩

section Example

-- The allocators that return the first address which is free.

def addresses (base stride n : Nat) : List Word :=
  (List.range n).map fun i => .ofNat 64 (base + stride * i)

def firstFree (xs used : List Word) (i : Nat) : Word :=
  (xs.filter fun x => !used.contains x).getD i 0

def Allocator.firstFit : Allocator where
  kmalloc s := firstFree (addresses (2 ^ 63) 64 (s.objects.length + 1)) s.objects 0
  pmem s    := firstFree (addresses pageSize pageSize (s.live.length + 3)) s.live

theorem nodup_addresses {base stride n : Nat} (hs : stride ≠ 0) (h : base + stride * n < 2 ^ 64) :
    (addresses base stride n).Nodup := by
  refine List.Nodup.map_on (fun i hi j hj he => ?_) List.nodup_range
  have hlt (i : Nat) (hi : i ∈ List.range n) : base + stride * i < 2 ^ 64 :=
    h.trans_le' <| Nat.add_le_add_left (Nat.mul_le_mul_left _ (List.mem_range.mp hi).le) _
  have he := congrArg BitVec.toNat he
  rw [Fs.ofNat_toNat (hlt i hi), Fs.ofNat_toNat (hlt j hj)] at he
  exact Nat.eq_of_mul_eq_mul_left (Nat.pos_of_ne_zero hs) <| Nat.add_left_cancel he

theorem length_filter {xs used : List Word} (hd : xs.Nodup) :
    xs.length ≤ used.length + (xs.filter fun x => !used.contains x).length := by
  have hs : (xs.filter fun x => used.contains x).length ≤ used.length := by
    refine (List.subperm_of_subset (hd.filter _) fun x hx => ?_).length_le
    simpa using (List.mem_filter.mp hx).2
  have := @List.length_eq_length_filter_add _ xs fun x => used.contains x
  omega

theorem firstFree_mem {xs used : List Word} {i : Nat} (hd : xs.Nodup) (h : used.length + i < xs.length) :
    firstFree xs used i ∈ xs ∧ firstFree xs used i ∉ used := by
  have hl : i < (xs.filter fun x => !used.contains x).length := by
    have := @length_filter xs used hd
    omega
  have hm := List.mem_filter.mp <| List.getElem_mem hl
  rw [firstFree, List.getD_eq_getElem _ _ hl]
  exact ⟨hm.1, by simpa using hm.2⟩

theorem firstFree_ne {xs used : List Word} {i j : Nat} (hd : xs.Nodup) (hij : i < j) (h : used.length + j < xs.length) :
    firstFree xs used i ≠ firstFree xs used j := by
  have hl : j < (xs.filter fun x => !used.contains x).length := by
    have := @length_filter xs used hd
    omega
  rw [firstFree, firstFree, List.getD_eq_getElem _ _ hl, List.getD_eq_getElem _ _ (hij.trans hl)]
  exact fun hc => hij.ne <| (List.Nodup.getElem_inj_iff <| hd.filter _).mp hc

-- The pages of the buffers, which lie between those of the two allocators.
def bufferPage (blk : Nat) : Word :=
  .ofNat 64 (2 ^ 62 + pageSize * blk)

theorem outside_bufferPage {addr : Word} (h : addr.toNat + n ≤ 2 ^ 62 ∨ 2 ^ 63 ≤ addr.toNat ∧ addr.toNat + n ≤ 2 ^ 64) :
    Outside (Fs.pagesOf bufferPage Fs.bufferMax) n addr := by
  rintro k hk ⟨blk, hb, hlt⟩
  have hb : blk < 10 := hb
  have hp : (bufferPage blk).toNat = 2 ^ 62 + 4096 * blk := Fs.ofNat_toNat <| by simp only [pageSize]; omega
  have hk' : (BitVec.ofNat 64 k).toNat = k := Fs.ofNat_toNat <| by omega
  have hlt : addr + .ofNat 64 k - bufferPage blk < 4096#64 := hlt
  generalize BitVec.ofNat 64 k = x at hk' hlt
  bv_omega

theorem enough_firstFit (h : n + 4 * m < 2 ^ 40) : Enough .firstFit (Fs.pagesOf bufferPage Fs.bufferMax) n m := by
  intro s hs
  obtain ⟨ho, hl⟩ : s.objects.length < 2 ^ 40 ∧ s.live.length < 2 ^ 40 := by
    simp only [TaskState.used] at hs
    omega
  have hlen (base stride n : Nat) : (addresses base stride n).length = n := by simp [addresses]
  have hdo : (addresses (2 ^ 63) 64 (s.objects.length + 1)).Nodup := nodup_addresses (by decide) (by omega)
  have hdl : (addresses pageSize pageSize (s.live.length + 3)).Nodup :=
    nodup_addresses (by decide) (by simp only [pageSize]; omega)
  constructor
  case object =>
    obtain ⟨hm, hn⟩ := @firstFree_mem _ s.objects 0 hdo (by rw [hlen]; omega)
    obtain ⟨i, hi, (he : _ = Allocator.firstFit.kmalloc s)⟩ := List.mem_map.mp hm
    have hi := List.mem_range.mp hi
    have ht : (Allocator.firstFit.kmalloc s).toNat = 2 ^ 63 + 64 * i := by
      rw [← he, Fs.ofNat_toNat (by omega)]
    refine ⟨fun hc => ?_, hn, outside_bufferPage <| .inr ?_⟩
    case refine_1 =>
      have hz : (Allocator.firstFit.kmalloc s).toNat = 0 := congrArg BitVec.toNat hc
      omega
    case refine_2 =>
      rw [ht, ehdrSize]
      omega
  case page =>
    intro j hj
    obtain ⟨hm, hn⟩ := @firstFree_mem _ s.live j hdl (by rw [hlen]; omega)
    obtain ⟨i, hi, (he : _ = Allocator.firstFit.pmem s j)⟩ := List.mem_map.mp hm
    have hi := List.mem_range.mp hi
    have ht : (Allocator.firstFit.pmem s j).toNat = pageSize + pageSize * i := by
      rw [← he, Fs.ofNat_toNat (by simp only [pageSize]; omega)]
    refine ⟨fun hc => ?_, aligned_iff.mpr ?_, hn, outside_bufferPage <| .inl ?_⟩
    case refine_1 =>
      have hz : (Allocator.firstFit.pmem s j).toNat = 0 := congrArg BitVec.toNat hc
      rw [ht, pageSize] at hz
      omega
    case refine_2 =>
      rw [ht, pageSize]
      omega
    case refine_3 =>
      rw [ht, pageSize]
      omega
  case distinct => exact fun i j hij hj => firstFree_ne hdl hij (by rw [hlen]; omega)

-- A file with the given program headers.

def bytesOf (w : Word) (n : Nat) : List Byte :=
  (List.range n).map fun k => (w >>> (8 * k)).setWidth 8

def ehdrBytes (entry : Word) (phnum : Nat) : List Byte :=
  elfIdent ++ bytesOf 0 9 ++ bytesOf 2 2 ++ bytesOf 243 2 ++ bytesOf 1 4 ++ bytesOf entry 8 ++ bytesOf 64 8 ++ bytesOf 0 12 ++
    bytesOf 64 2 ++ bytesOf 56 2 ++ bytesOf (.ofNat 64 phnum) 2 ++ bytesOf 0 6

def phdrBytes (phdr : Phdr) : List Byte :=
  bytesOf (phdr.type.setWidth 64) 4 ++ bytesOf (phdr.flags.setWidth 64) 4 ++ bytesOf phdr.offset 8 ++ bytesOf phdr.vaddr 8 ++
    bytesOf 0 8 ++ bytesOf phdr.filesz 8 ++ bytesOf phdr.memsz 8 ++ bytesOf phdr.align 8

def imageOf (entry : Word) (phdrs : List Phdr) : Image :=
  let bytes := ehdrBytes entry phdrs.length ++ phdrs.flatMap phdrBytes
  { size := .ofNat 32 bytes.length, content := fun i => bytes.getD i 0 }

-- A segment in two pages, of which the file contains the beginning.
def segment (vaddr : Word) : Phdr :=
  { type := ptLoad, flags := 5, offset := 0, vaddr, filesz := 120, memsz := 0x1800, align := 0x1000 }

-- The task of the examples, with the pages for the trapframe and the stacks.
def begun : TaskState :=
  { sample with live := [0x2000, 0x3000, 0x4000, 0x81000000, 0x82000000, 0x83000000] }

-- The file has the vnode 1, and none of its blocks is in a buffer.
def begunLoad (image : Image) : LoadState Nat Fs.Blocks where
  state  := begun
  kernel := Fs.countingKernel image.size Fs.bufferMax

def begunLoader (image : Image) : Loader Fs.Blocks :=
  .ofBlocks .firstFit (Fs.fileRead image.content) bufferPage (fun _ _ _ => 0) 1

theorem begun_tables {t : Word} (h : t ∈ Pte.tables begun.mem begun.task.userPte) : t ∈ sample.live := by
  have ⟨_, ts, hc, hm, d, hl⟩ := sample_created.table
  have ht := (taskCreateTable_maps sample_created.task.1 hc d).2
  refine hl t ?_
  have h : t ∈ Pte.tables ts.mem sample.task.userPte := hm ▸ h
  rw [ht] at h
  exact h

theorem sample_begun : Begun Pte.page 0x80001000 0x81000000 0x82000000 0x83000000 begun where
  created :=
    have ⟨_, ts, hc, hm, d, hl⟩ := sample_created.table
    { table   := ⟨_, ts, hc, hm, d, fun t h => List.mem_append_left [0x81000000, 0x82000000, 0x83000000] <| hl t h⟩
      task    := sample_created.task
      live    := show [(0x2000 : Word), 0x3000, 0x4000, 0x81000000, 0x82000000, 0x83000000].Nodup by simp
      objects := .nil }
  nodup   := by simp
  live    := by
    have hl : ∀ t ∈ [(0x82000000 : Word), 0x83000000, 0x81000000],
      t ∈ [(0x2000 : Word), 0x3000, 0x4000, 0x81000000, 0x82000000, 0x83000000] := by simp
    have hn : ∀ t ∈ [(0x82000000 : Word), 0x83000000, 0x81000000], t ∉ [(0x2000 : Word), 0x3000, 0x4000] := by simp
    exact fun t h => ⟨hl t h, fun hc => hn t h <| begun_tables hc⟩

theorem sample_opened {image : Image}
    (h : (Fs.byteBlocks 1 0 image.size.toNat).dedup.length ≤ Fs.bufferMax.toNat) :
    Opened Fs.sampleHistory (Fs.fileRead image.content) 1 image (begunLoad image).kernel where
  file    := nofun
  size    := rfl
  content := Fs.fileRead_reads image.size.isLt.le
  linked  := rfl
  past    := nofun
  buffers := rfl
  room    := h
  free    := rfl

-- The loading of a file with the given program headers.
def sampleLoad (phdrs : List Phdr) : LoadM Nat Fs.Blocks (List Visit × Option Word) :=
  taskCreateLoad (begunLoader <| imageOf 0x10078 phdrs) (2 ^ 27) 0x82000000 0x83000000 0x81000000

theorem sample_room :
    (Fs.byteBlocks 1 0 (imageOf 0x10078 [segment 0x10000]).size.toNat).dedup.length ≤ Fs.bufferMax.toNat := by
  decide +kernel

theorem sample_enough {image : Image} : Enough .firstFit (Fs.pagesOf bufferPage Fs.bufferMax)
    ((begunLoad image).state.used + 2) (min (pageNeed image.phdrs) (2 ^ 27)) :=
  enough_firstFit <| by
    have h : (begunLoad image).state.used = 6 := rfl
    omega

end Example

section Results

variable {alloc : Allocator} {history : Fs.History} {read : Fs.ReadBlock} {addr : Nat → Word} {device : Fs.DeviceBytes}
  {node : Fs.Node} {σ : LoadState Obj Fs.Blocks} (b : Begun pmem uvecStart tfp ustackPa kstackPa σ.state)
  (w : Opened history read node image σ.kernel)
  (hE : Enough alloc (Fs.pagesOf addr Fs.bufferMax) (σ.state.used + 2) (min (pageNeed image.phdrs) (2 ^ 27)))

include b w hE

-- The segments of a file that is loaded are mapped with their flags, and contain the bytes of the file.
theorem taskCreateLoad_maps (hfuel : 2 ^ 27 ≤ fuel) (hs : image.Sound) (ha : image.Separate)
    (hy : image.Loads) : ∃ visits σ',
    (taskCreateLoad (.ofBlocks alloc read addr device node) fuel ustackPa kstackPa tfp).run σ =
      (.ok (visits, some image.header.entry), σ') ∧
    let data := image.readInto 0 (alloc.kmalloc σ.state) (.ofNat 64 ehdrSize) σ.kernel.mem
    (∀ phdr ∈ image.phdrs, phdr.type = ptLoad →
      ∀ a, phdr.vaddr.toNat ≤ a → a < phdr.vaddr.toNat + phdr.memsz.toNat →
      ∃ pa, translation σ'.state.mem σ'.state.task.userPte (.ofNat 64 a) = some (pa, taskAuxMapFlags phdr.flags) ∧
        align4K pa ∉ σ.state.live ∧ ¬Fs.pagesOf addr Fs.bufferMax pa ∧
        σ'.kernel.mem pa = if a - phdr.vaddr.toNat < phdr.filesz.toNat then
          image.content (phdr.offset.toNat + (a - phdr.vaddr.toNat))
          else data pa) ∧
    (∀ va, translation σ'.state.mem σ'.state.task.userPte va ≠ none ↔
      pageNumber va ∈ (fixedVas ++ (placesOf image image.phdrs).map placePage).map pageNumber) ∧
    (∀ a, ¬Fs.pagesOf addr Fs.bufferMax a → align4K a ∈ σ.state.live → σ'.kernel.mem a = data a) ∧
    σ'.kernel.locked = false := by
  obtain ⟨visits, entry, σ', h, hx⟩ := b.returns (w.serving ..) w.free hE rfl hfuel hs ha
  obtain ⟨_, _, _, ho⟩ := b.outcome (w.serving ..) w.free hE rfl h hx
  obtain ⟨he, _, hu, x, es, hnx, hplaces, l, hf, hk⟩ := ho.resolve_left fun hc => hc.2.1 hy
  refine ⟨visits, σ', he ▸ h, fun phdr hmem ht a h₁ h₂ => ?_, fun va => ?_, fun a ho ha => hk a ho ?_, hu⟩
  case refine_1 =>
    obtain ⟨e, hm, htr, hpa, hcontent⟩ := l.exists_entry hplaces hs hy hmem ht h₁ h₂
    have hlt : a % pageSize < pageSize := Nat.mod_lt _ <| by decide
    obtain ⟨hout, hf⟩ := hf e hm _ hlt
    refine ⟨_, l.userPte ▸ htr, ?_, hout, hf.trans <| hcontent _⟩
    rw [align4K_add hpa hlt]
    exact l.pa_new hm
  case refine_2 => exact l.userPte ▸ l.mapped_iff hplaces
  case refine_3 =>
    intro hc
    cases List.mem_cons.mp hc
    case inl hc => exact hnx <| hc ▸ ha
    case inr hc =>
      obtain ⟨e, hm, he⟩ := List.mem_map.mp hc
      exact l.pa_new hm <| he ▸ ha

omit b w hE in
theorem sample_maps : ∃ visits σ' pa,
    (sampleLoad [segment 0x10000]).run (begunLoad <| imageOf 0x10078 [segment 0x10000]) = (.ok (visits, some 0x10078), σ') ∧
    translation σ'.state.mem σ'.state.task.userPte 0x10001 = some (pa, taskAuxMapFlags 5) ∧ σ'.kernel.mem pa = 0x45 := by
  obtain ⟨visits, σ', h, hmaps, _⟩ : ∃ visits σ', (sampleLoad [segment 0x10000]).run _ = _ ∧ _ :=
    taskCreateLoad_maps sample_begun (sample_opened sample_room) sample_enough le_rfl (by decide +kernel) (by decide +kernel)
      (by decide +kernel)
  have hm : segment 0x10000 ∈ (imageOf 0x10078 [segment 0x10000]).phdrs := by decide +kernel
  have he : (imageOf 0x10078 [segment 0x10000]).header.entry = 0x10078 := by decide +kernel
  have ⟨pa, ht, _, _, hd⟩ := hmaps (segment 0x10000) hm rfl 0x10001 (by decide) (by decide)
  exact ⟨visits, σ', pa, he ▸ h, ht, hd⟩

end Results

end Zgmos.Process
