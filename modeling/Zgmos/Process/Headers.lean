import Zgmos.Process.Loading

-- The program header table.

namespace Zgmos.Process

open Pte

variable {Obj Buffers : Type}

section Segments

variable (image : Image)

-- The segments that are loaded. The loader stops at the first one which it does not accept, and behind the first one
-- whose data is cut off.
def loadedSegments : List Phdr → List Phdr
  | []            => []
  | phdr :: phdrs =>
    if phdr.type ≠ ptLoad then
      loadedSegments phdrs
    else if phdr.Accepted then
      phdr :: if (phdr.cutOff image).isNone then loadedSegments phdrs else []
    else
      []

-- The loader does not stop.
def allLoaded (phdrs : List Phdr) : Bool :=
  phdrs.all fun phdr => phdr.type ≠ ptLoad ∨ phdr.Accepted ∧ (phdr.cutOff image).isNone

def visitOf (phdr : Phdr) : Visit :=
  { phdr, pages := phdr.pages image, complete := (phdr.cutOff image).isNone }

def placesOf (phdrs : List Phdr) : List (Phdr × Nat) :=
  (loadedSegments image phdrs).flatMap fun phdr => phdr.places 0 (phdr.visited image)

-- The number of pages which the segments need.
def pageNeed (phdrs : List Phdr) : Nat :=
  ((phdrs.filter (·.type = ptLoad)).map Phdr.pageCount).sum

end Segments

def placePage (place : Phdr × Nat) : Word :=
  place.1.page place.2

-- What the loader has done for the headers, beginning with the pages `es`. All headers have been read if `whole` holds.
structure Walked (loader : Loader Buffers) (own : Word → Prop) (F : Space) (p : Word) (s₀ : TaskState) (buf : Word)
    (image : Image) (data : Word → Byte) (phdrs : List Phdr) (whole : Bool) (es : List Entry) (visits : List Visit)
    (ok : Bool) (es' : List Entry) (σ : LoadState Obj Buffers) : Prop where
  trace  : visits = (loadedSegments image phdrs).map (visitOf image)
  sound  : ∀ phdr ∈ loadedSegments image phdrs, phdr.Sound image
  status : ok = (allLoaded image phdrs && whole)
  places : es'.map Entry.place = es.map Entry.place ++ placesOf image phdrs
  loaded : Loaded F p s₀ es' σ.state
  kept   : Kept own buf es' data σ.kernel.mem
  ready  : ok = true → Ready loader own F p s₀ buf image data es' σ

variable {F : Space} {p buf : Word} {vas : List Word} {s₀ : TaskState} {m fuel : Nat} {image : Image} {data : Word → Byte}
  {phdr : Phdr} {phdrs phdrs' : List Phdr} {es es' es'' : List Entry} {visits visits' : List Visit} {ok whole : Bool}
  {σ σ' : LoadState Obj Buffers} {loader : Loader Buffers} {own : Word → Prop} {a : BitVec 39}

section Single

variable (image)

theorem loadedSegments_other (h : phdr.type ≠ ptLoad) :
    loadedSegments image [phdr] = [] ∧ allLoaded image [phdr] = true := by
  simp [loadedSegments, allLoaded, h]

theorem loadedSegments_reject (ht : phdr.type = ptLoad) (h : ¬phdr.Accepted) :
    loadedSegments image [phdr] = [] ∧ allLoaded image [phdr] = false := by
  simp [loadedSegments, allLoaded, ht, h]

theorem loadedSegments_accept (ht : phdr.type = ptLoad) (h : phdr.Accepted) :
    loadedSegments image [phdr] = [phdr] ∧ allLoaded image [phdr] = (phdr.cutOff image).isNone := by
  cases hc : phdr.cutOff image <;> simp [loadedSegments, allLoaded, ht, h, hc]

variable {image}

theorem pageNeed_load (ht : phdr.type = ptLoad) : pageNeed [phdr] = phdr.pageCount := by
  simp [pageNeed, ht]

theorem pages_eq : phdr.pages image = (phdr.places 0 (phdr.visited image)).map placePage := by
  rw [Phdr.pages, Phdr.places, List.map_map, List.range_eq_range']
  rfl

theorem length_places {i k : Nat} : (phdr.places i k).length = k := by
  rw [Phdr.places, List.length_map, List.length_range']

end Single

section Append

theorem allLoaded_append : allLoaded image (phdrs ++ phdrs') = (allLoaded image phdrs && allLoaded image phdrs') :=
  List.all_append

theorem loadedSegments_append : loadedSegments image (phdrs ++ phdrs') =
    loadedSegments image phdrs ++ if allLoaded image phdrs then loadedSegments image phdrs' else [] := by
  induction phdrs
  case nil => rfl
  case cons phdr phdrs hi =>
    have ha : allLoaded image (phdr :: phdrs) =
      (decide (phdr.type ≠ ptLoad ∨ phdr.Accepted ∧ (phdr.cutOff image).isNone) && allLoaded image phdrs) := rfl
    rw [List.cons_append, loadedSegments, loadedSegments, hi, ha]
    by_cases ht : phdr.type ≠ ptLoad
    case pos => simp [ht]
    case neg =>
      by_cases hc : phdr.Accepted
      case pos => cases phdr.cutOff image <;> simp [ht, hc]
      case neg => simp [ht, hc]

theorem placesOf_append : placesOf image (phdrs ++ phdrs') =
    placesOf image phdrs ++ if allLoaded image phdrs then placesOf image phdrs' else [] := by
  rw [placesOf, loadedSegments_append, List.flatMap_append]
  split_ifs <;> rfl

theorem pageNeed_append : pageNeed (phdrs ++ phdrs') = pageNeed phdrs + pageNeed phdrs' := by
  simp [pageNeed]

theorem length_placesOf (h : ∀ phdr ∈ loadedSegments image phdrs, phdr.Sound image) :
    (placesOf image phdrs).length ≤ pageNeed phdrs ∨ 2 ^ 27 ≤ pageNeed phdrs := by
  induction phdrs
  case nil => exact .inl <| Nat.zero_le _
  case cons phdr phdrs hi =>
    have hp : placesOf image (phdr :: phdrs) = _ := @placesOf_append image [phdr] phdrs
    have hn : pageNeed (phdr :: phdrs) = pageNeed [phdr] + pageNeed phdrs := @pageNeed_append [phdr] phdrs
    have hl : loadedSegments image (phdr :: phdrs) = _ := @loadedSegments_append image [phdr] phdrs
    rw [hl] at h
    have ⟨h₁, h₂⟩ := List.forall_mem_append.mp h
    have hs : (placesOf image [phdr]).length ≤ pageNeed [phdr] ∨ 2 ^ 27 ≤ pageNeed [phdr] := by
      by_cases hc : phdr.type = ptLoad ∧ phdr.Accepted
      case pos =>
        have h := (loadedSegments_accept image hc.1 hc.2).1
        rw [h, List.forall_mem_singleton] at h₁
        rw [placesOf, h, List.flatMap_singleton, length_places, pageNeed_load hc.1]
        exact Phdr.visited_le h₁
      case neg =>
        have h : loadedSegments image [phdr] = [] := by
          by_cases ht : phdr.type = ptLoad
          case pos => exact (loadedSegments_reject image ht fun ha => hc ⟨ht, ha⟩).1
          case neg => exact (loadedSegments_other image ht).1
        rw [placesOf, h]
        exact .inl <| Nat.zero_le _
    have hr : (if allLoaded image [phdr] then placesOf image phdrs else []).length ≤ pageNeed phdrs ∨
        2 ^ 27 ≤ pageNeed phdrs := by
      split_ifs at h₂ ⊢
      case pos => exact hi h₂
      case neg => exact .inl <| Nat.zero_le _
    rw [hp, hn, List.length_append]
    omega

end Append

namespace Walked

theorem append (w : Walked loader own F p s₀ buf image data phdrs true es visits true es' σ)
    (w' : Walked loader own F p s₀ buf image data phdrs' whole es' visits' ok es'' σ') :
    Walked loader own F p s₀ buf image data (phdrs ++ phdrs') whole es (visits ++ visits') ok es'' σ' := by
  have ha : allLoaded image phdrs = true := by simpa using w.status.symm
  constructor
  case trace  => rw [loadedSegments_append, if_pos ha, List.map_append, w.trace, w'.trace]
  case sound  =>
    rw [loadedSegments_append, if_pos ha]
    exact List.forall_mem_append.mpr ⟨w.sound, w'.sound⟩
  case status => rw [allLoaded_append, ha, Bool.true_and, w'.status]
  case places => rw [w'.places, w.places, placesOf_append, if_pos ha, List.append_assoc]
  case loaded => exact w'.loaded
  case kept   => exact w'.kept
  case ready  => exact w'.ready

-- The rest of the headers does not matter when the loader has stopped.
theorem stop (w : Walked loader own F p s₀ buf image data phdrs true es visits false es' σ) :
    Walked loader own F p s₀ buf image data (phdrs ++ phdrs') whole es visits false es' σ := by
  have ha : allLoaded image phdrs = false := by simpa using w.status.symm
  have hn : ¬allLoaded image phdrs = true := by simp [ha]
  constructor
  case trace  => rw [loadedSegments_append, if_neg hn, List.append_nil, w.trace]
  case sound  =>
    rw [loadedSegments_append, if_neg hn, List.append_nil]
    exact w.sound
  case status => rw [allLoaded_append, ha, Bool.false_and, Bool.false_and]
  case places => rw [placesOf_append, if_neg hn, List.append_nil, w.places]
  case loaded => exact w.loaded
  case kept   => exact w.kept
  case ready  => exact w.ready

end Walked

-- The visited pages follow each other, whatever happens to them.
theorem loadPages_pages {flags endPg byteCnt byteOffset : Word} {i : Nat}
    (h : (loadPages loader phdr flags endPg fuel (phdr.page i) byteCnt byteOffset).run σ = (.ok (vas, ok), σ')) :
    vas = (List.range' i vas.length).map phdr.page := by
  induction fuel generalizing σ i byteCnt byteOffset vas
  case zero => cases h
  case succ fuel hi =>
    rw [loadPages] at h
    split_ifs at h
    case neg =>
      cases h
      rfl
    case pos =>
      obtain ⟨res, _, _, h⟩ := ExceptT.run_bind_eq_ok.mp h
      cases res
      case none =>
        cases h
        rfl
      case some =>
        obtain ⟨⟨vas', _⟩, _, h₁, h⟩ := ExceptT.run_bind_eq_ok.mp h
        cases h
        rw [Phdr.page_succ] at h₁
        rw [List.length_cons, List.range'_succ, List.map_cons, ← hi h₁]

theorem Loaded.vas_eq {s : TaskState} (l : Loaded F p s₀ es s) :
    es.map (·.page.va) = (es.map Entry.place).map placePage := by
  rw [List.map_map]
  exact List.map_congr_left fun e hm => (l.entries e hm).1

theorem Walked.vas_eq {s : TaskState} (w : Walked loader own F p s₀ buf image data phdrs whole es visits ok es' σ)
    (l : Loaded F p s₀ es s) :
    es'.map (·.page.va) = es.map (·.page.va) ++ (placesOf image phdrs).map placePage := by
  rw [w.loaded.vas_eq, w.places, List.map_append, ← l.vas_eq]

theorem Walked.length_le (w : Walked loader own F p s₀ buf image data phdrs whole es visits ok es' σ) :
    es'.length ≤ es.length + pageNeed phdrs ∨ 2 ^ 27 ≤ pageNeed phdrs := by
  have hl := congrArg List.length w.places
  rw [List.length_append, List.length_map, List.length_map] at hl
  have := length_placesOf w.sound
  omega

theorem Apart.left {vas' : List Word} (h : Apart F (vas ++ vas')) : Apart F vas where
  nodup := by
    have := h.nodup
    rw [List.map_append] at this
    exact this.of_append_left
  free  := fun va hm => h.free va <| List.mem_append_left _ hm

section Loop

variable (hE : Enough loader.alloc own s₀.used (min m (2 ^ 27))) (hF : Paged F) (hn : F a ≠ none)
  (y : Ready loader own F p s₀ buf image data es σ)

include hE hF hn y

theorem Ready.loadSegment_walked (hm : es.length + pageNeed [phdr] ≤ m ∨ 2 ^ 27 ≤ m)
    (h : (loadSegment loader fuel phdr).run σ = (.ok (visits, ok), σ')) (hx : ∀ v ∈ visits, v.Exact) :
    ∃ es', Walked loader own F p s₀ buf image data [phdr] true es visits ok es' σ' := by
  -- Nothing is loaded.
  have hnone (hv : visits = []) (hs : loadedSegments image [phdr] = []) (ha : ok = allLoaded image [phdr]) (he : σ' = σ) :
      Walked loader own F p s₀ buf image data [phdr] true es visits ok es σ' := by
    subst he
    refine ⟨by rw [hs, hv]; rfl, by simp [hs], by rw [ha, Bool.and_true], ?_, y.loaded, y.kept, fun _ => y⟩
    rw [placesOf, hs, List.flatMap_nil, List.append_nil]
  rw [loadSegment] at h
  split_ifs at h with ht hal
  case pos =>
    cases h
    have ⟨h₁, h₂⟩ := loadedSegments_other image ht
    exact ⟨es, hnone rfl h₁ h₂.symm rfl⟩
  case pos =>
    cases h
    have ⟨h₁, h₂⟩ := loadedSegments_reject image (not_not.mp ht) fun ha => hal ha.1
    exact ⟨es, hnone rfl h₁ h₂.symm rfl⟩
  case neg =>
    simp only at h
    split_ifs at h with hf
    case pos =>
      cases h
      have ⟨h₁, h₂⟩ := loadedSegments_reject image (not_not.mp ht) fun ha => ha.2 hf
      exact ⟨es, hnone rfl h₁ h₂.symm rfl⟩
    case neg =>
      have ⟨⟨vas, ok'⟩, _, h₁, h⟩ := ExceptT.run_bind_eq_ok.mp h
      cases h
      have hx := List.forall_mem_singleton.mp hx
      rw [← Phdr.page_zero] at h₁
      have hv := loadPages_pages h₁
      have hlen : vas.length ≤ phdr.pageCount ∨ 2 ^ 27 ≤ phdr.pageCount := by
        refine Phdr.le_pageCount fun k hk => hx.1 _ ?_
        simp only
        rw [hv]
        exact List.mem_map.mpr ⟨k, by simp [hk], rfl⟩
      rw [pageNeed_load (not_not.mp ht)] at hm
      have ⟨l, es', hp, hl, hk, hy⟩ := y.loadPages_loop hE hF hn hf Phdr.reading_zero (by omega) h₁
      have ⟨hs, hv', ho⟩ := Phdr.loop_exact_iff.mp ⟨l, hx⟩
      have ⟨h₁, h₂⟩ := loadedSegments_accept image (not_not.mp ht) ⟨not_not.mp hal, hf⟩
      refine ⟨es', ?_, ?_, ?_, ?_, hl, hk, hy⟩
      case refine_1 =>
        rw [h₁, hv', ho]
        rfl
      case refine_2 =>
        rw [h₁]
        exact List.forall_mem_singleton.mpr hs
      case refine_3 => rw [h₂, ho, Bool.and_true]
      case refine_4 =>
        rw [hp, placesOf, h₁, List.flatMap_singleton, hv']
        simp [Phdr.pages]

theorem Ready.loadSegment_run (hm : es.length + pageNeed [phdr] ≤ m ∨ 2 ^ 27 ≤ m) (hfuel : 2 ^ 27 ≤ fuel)
    (hs : ∀ ph ∈ loadedSegments image [phdr], ph.Sound image)
    (ha : Apart F (es.map (·.page.va) ++ (placesOf image [phdr]).map placePage)) :
    ∃ visits ok σ', (loadSegment loader fuel phdr).run σ = (.ok (visits, ok), σ') ∧ ∀ v ∈ visits, v.Exact := by
  have hnil : ∀ v ∈ ([] : List Visit), v.Exact := fun _ hv => absurd hv List.not_mem_nil
  rw [loadSegment]
  by_cases ht : phdr.type ≠ ptLoad
  case pos =>
    rw [if_pos ht]
    exact ⟨_, _, _, rfl, hnil⟩
  case neg =>
    rw [if_neg ht]
    by_cases hal : phdr.align ≠ .ofNat 64 pageSize
    case pos =>
      rw [if_pos hal]
      exact ⟨_, _, _, rfl, hnil⟩
    case neg =>
      rw [if_neg hal]
      simp only
      by_cases hf : taskAuxMapFlags phdr.flags = 0
      case pos =>
        rw [if_pos hf]
        exact ⟨_, _, _, rfl, hnil⟩
      case neg =>
        have hl := (loadedSegments_accept image (not_not.mp ht) ⟨not_not.mp hal, hf⟩).1
        rw [hl, List.forall_mem_singleton] at hs
        rw [placesOf, hl, List.flatMap_singleton, ← pages_eq] at ha
        obtain ⟨l, hx⟩ := Phdr.loop_exact_iff.mpr ⟨hs, rfl, rfl⟩
        have hlen : (phdr.pages image).length = phdr.visited image := by simp [Phdr.pages]
        have hle := Phdr.visited_le hs
        have hlt := ha.length_lt hF hn
        rw [List.length_append] at hlt
        rw [pageNeed_load (not_not.mp ht)] at hm
        obtain ⟨σ', he⟩ := y.loadPages_run hE hF hn hf Phdr.reading_zero (by omega) l ha (show _ < fuel by omega)
        rw [if_neg hf, ← Phdr.page_zero, ExceptT.run_bind_ok he]
        exact ⟨_, _, _, rfl, List.forall_mem_singleton.mpr hx⟩

theorem Ready.loadHeaders_walked (hm : es.length + pageNeed phdrs ≤ m ∨ 2 ^ 27 ≤ m)
    (h : (loadHeaders loader fuel phdrs).run σ = (.ok (visits, ok), σ')) (hx : ∀ v ∈ visits, v.Exact) :
    ∃ es', Walked loader own F p s₀ buf image data phdrs true es visits ok es' σ' := by
  induction phdrs generalizing es σ visits
  case nil =>
    cases h
    exact ⟨es, rfl, fun _ hm => absurd hm List.not_mem_nil, rfl, (List.append_nil _).symm, y.loaded, y.kept, fun _ => y⟩
  case cons phdr phdrs hi =>
    rw [show phdr :: phdrs = [phdr] ++ phdrs from rfl, pageNeed_append] at hm
    have ⟨⟨visits₁, ok₁⟩, σ₁, h₁, h⟩ := ExceptT.run_bind_eq_ok.mp h
    cases ok₁
    case false =>
      cases h
      have ⟨es', w⟩ := y.loadSegment_walked hE hF hn (by omega) h₁ hx
      exact ⟨es', w.stop⟩
    case true =>
      have ⟨⟨visits₂, ok₂⟩, _, h₂, h⟩ := ExceptT.run_bind_eq_ok.mp h
      cases h
      have ⟨hx₁, hx₂⟩ := List.forall_mem_append.mp hx
      have ⟨es₁, w⟩ := y.loadSegment_walked hE hF hn (by omega) h₁ hx₁
      have ⟨es', w'⟩ := hi (w.ready rfl) (by have := w.length_le; omega) h₂ hx₂
      exact ⟨es', w.append w'⟩

theorem Ready.loadHeaders_run (hm : es.length + pageNeed phdrs ≤ m ∨ 2 ^ 27 ≤ m) (hfuel : 2 ^ 27 ≤ fuel)
    (hs : ∀ phdr ∈ loadedSegments image phdrs, phdr.Sound image)
    (ha : Apart F (es.map (·.page.va) ++ (placesOf image phdrs).map placePage)) :
    ∃ visits ok σ', (loadHeaders loader fuel phdrs).run σ = (.ok (visits, ok), σ') ∧ ∀ v ∈ visits, v.Exact := by
  induction phdrs generalizing es σ
  case nil => exact ⟨_, _, _, rfl, fun _ hv => absurd hv List.not_mem_nil⟩
  case cons phdr phdrs hi =>
    rw [show phdr :: phdrs = [phdr] ++ phdrs from rfl] at hm hs ha
    rw [pageNeed_append] at hm
    rw [loadedSegments_append] at hs
    rw [placesOf_append, List.map_append, ← List.append_assoc] at ha
    have ⟨hs₁, hs₂⟩ := List.forall_mem_append.mp hs
    have ⟨visits₁, ok₁, σ₁, he₁, hx₁⟩ := y.loadSegment_run hE hF hn (by omega) hfuel hs₁ ha.left
    have ⟨es₁, w⟩ := y.loadSegment_walked hE hF hn (by omega) he₁ hx₁
    rw [loadHeaders, ExceptT.run_bind_ok he₁]
    cases ok₁
    case false => exact ⟨_, _, _, rfl, hx₁⟩
    case true =>
      have hl : allLoaded image [phdr] = true := by simpa using w.status.symm
      rw [if_pos hl] at hs₂ ha
      rw [← w.vas_eq y.loaded] at ha
      have ⟨visits₂, ok₂, σ₂, he₂, hx₂⟩ := hi (w.ready rfl) (by have := w.length_le; omega) hs₂ ha
      simp only [if_true]
      rw [ExceptT.run_bind_ok he₂]
      exact ⟨_, _, _, rfl, List.forall_mem_append.mpr ⟨hx₁, hx₂⟩⟩

end Loop

end Zgmos.Process
