import Zgmos.Process.Table

-- What is freed when the loader fails, and when the task exits.

namespace Zgmos.Process

open Pte

-- What belongs to the task has been freed, and nothing else.
structure Freed (held : List Word) (s s' : TaskState) : Prop where
  pages   : s'.task.pages = []
  live    : s'.live.Nodup ∧ ∀ t, t ∈ s'.live ↔ t ∈ s.live ∧ t ∉ held ∧ t ∉ Pte.tables s.mem s.task.userPte
  objects : s'.objects = s.objects

variable {F : Space} {p tfp ustackPa kstackPa : Word} {s₀ s : TaskState} {es : List Entry} {pages : List TaskPage}

section Cleanup

theorem diff_append {α : Type} [DecidableEq α] (xs ys : List α) : (xs ++ ys).diff xs = ys := by
  induction xs
  case nil => rfl
  case cons x xs hi => rw [List.cons_append, List.diff_cons, List.erase_cons_head, hi]

-- The loop of `task_remove_all_page`.
theorem forM_removePage_diff (hd : (pages.map (·.pa)).Nodup) (hp : ∀ pg ∈ pages, pg.pa ∈ s.live)
    (ha : (pages.map (·.addr)).Nodup) (ho : ∀ pg ∈ pages, pg.addr ∈ s.objects) :
    (pages.forM removePage).run s = (.ok (), {
      s with
      task    := { s.task with pages := s.task.pages.diff pages }
      live    := s.live.diff (pages.map (·.pa))
      objects := s.objects.diff (pages.map (·.addr))
    }) := by
  induction pages generalizing s
  case nil => rfl
  case cons pg pages hi =>
    have ⟨hpn, hd⟩ := List.nodup_cons.mp hd
    have ⟨han, ha⟩ := List.nodup_cons.mp ha
    have ⟨hpm, hp⟩ := List.forall_mem_cons.mp hp
    have ⟨hom, ho⟩ := List.forall_mem_cons.mp ho
    refine (ExceptT.run_forM_cons <| removePage_run hpm hom).trans <| (hi hd (fun qg hq => ?_) ha fun qg hq => ?_).trans ?_
    case refine_1 =>
      have hn : qg.pa ≠ pg.pa := fun hc => hpn <| List.mem_map.mpr ⟨qg, hq, hc⟩
      exact (List.mem_erase_of_ne hn).mpr <| hp qg hq
    case refine_2 =>
      have hn : qg.addr ≠ pg.addr := fun hc => han <| List.mem_map.mpr ⟨qg, hq, hc⟩
      exact (List.mem_erase_of_ne hn).mpr <| ho qg hq
    case refine_3 => simp only [List.map_cons, List.diff_cons]

theorem destoryUser_run (h : Tree s.mem s.task.userPte) : destoryUser.run s =
    (.ok (), { s with live := s.live.filter fun t => !(freeOrder s.mem s.task.userPte).contains t }) := by
  have hr : destoryUser.run s =
      let r := (pteDestory s.mem s.task.userPte).run []
      (r.1, { s with live := s.live.filter fun t => !r.2.contains t }) := rfl
  rw [hr, pteDestory_run h.nodup_freeOrder]

-- The cleanup from the label `after_ustack` on.
theorem afterUstack_run (h : Tree s.mem s.task.userPte) (hd : [ustackPa, kstackPa, tfp].Nodup)
    (hl : ∀ t ∈ [ustackPa, kstackPa, tfp], t ∈ s.live) (hn : s.live.Nodup) :
    ∃ live', (afterUstack ustackPa kstackPa tfp).run s = (.ok (), { s with live := live' }) ∧ live'.Nodup ∧
      ∀ t, t ∈ live' ↔ t ∈ s.live ∧ t ∉ [ustackPa, kstackPa, tfp] ∧ t ∉ Pte.tables s.mem s.task.userPte := by
  have hu : ustackPa ∈ s.live := hl _ <| by simp
  have hk : kstackPa ∈ s.live.erase ustackPa := (List.mem_erase_of_ne <| by rintro rfl; simp at hd).mpr <| hl _ <| by simp
  have ht : tfp ∈ (s.live.erase ustackPa).erase kstackPa := by
    refine (List.mem_erase_of_ne <| by rintro rfl; simp at hd).mpr ?_
    exact (List.mem_erase_of_ne <| by rintro rfl; simp at hd).mpr <| hl _ <| by simp
  have hn₁ := hn.erase ustackPa
  have hn₂ := hn₁.erase kstackPa
  have hn₃ := hn₂.erase tfp
  refine ⟨_, (ExceptT.run_bind_ok <| pmemFree_run hu).trans <| (ExceptT.run_bind_ok <| pmemFree_run hk).trans <|
    (ExceptT.run_bind_ok <| pmemFree_run ht).trans <| destoryUser_run h, hn₃.filter _, fun t => ?_⟩
  rw [List.mem_filter, hn₂.mem_erase_iff, hn₁.mem_erase_iff, hn.mem_erase_iff]
  simp only [Bool.not_eq_true', List.mem_cons, List.not_mem_nil, or_false, ← Bool.not_eq_true, List.contains_iff_mem,
    mem_freeOrder]
  tauto

end Cleanup

section Accounting

namespace Loaded

-- Only the pages and their tables are new.
theorem mem_live_iff (l : Loaded F p s₀ es s) (t : Word) :
    t ∈ s.live ∧ t ∉ es.map (·.page.pa) ∧ t ∉ Pte.tables s.mem p ↔ t ∈ s₀.live ∧ t ∉ Pte.tables s₀.mem p := by
  have ⟨hn, ts, hp, _, he⟩ := l.live
  have hd := List.nodup_append.mp <| hp.nodup_iff.mp hn
  have hd' := List.nodup_append.mp hd.2.1
  rw [hp.mem_iff, he]
  simp only [List.mem_append, Set.mem_union, Set.mem_ofPred_eq]
  constructor
  case mp  => tauto
  case mpr =>
    intro ⟨hm, ht⟩
    have h₁ : t ∉ ts := fun hc => hd.2.2 _ hc _ (List.mem_append_right _ hm) rfl
    have h₂ : t ∉ es.map (·.page.pa) := fun hc => hd'.2.2 _ hc _ hm rfl
    tauto

theorem removeAll_run (l : Loaded F p s₀ es s) : ∃ live', taskRemoveAllPage.run s = (.ok (), {
      task    := { s.task with pages := [] }
      mem     := s.mem
      live    := live'
      objects := s₀.objects
    }) ∧ live'.Nodup ∧ ∀ t, t ∈ live' ↔ t ∈ s.live ∧ t ∉ es.map (·.page.pa) := by
  have ⟨hn, ts, hp, _, he⟩ := l.live
  have hd := List.nodup_append.mp <| (List.nodup_append.mp <| hp.nodup_iff.mp hn).2.1
  have hpas : s.task.pages.map (·.pa) = (es.map (·.page.pa)).reverse := by rw [l.pages, List.map_reverse, List.map_map]; rfl
  have haddrs : s.task.pages.map (·.addr) = (es.map (·.page.addr)).reverse := by
    rw [l.pages, List.map_reverse, List.map_map]
    rfl
  have ho := l.objects.1
  rw [l.objects.2, List.nodup_append] at ho
  have hr := @forM_removePage_diff s s.task.pages (by rw [hpas]; exact List.nodup_reverse.mpr hd.1) (fun pg hm => ?_)
    (by rw [haddrs]; exact ho.1) fun pg hm => ?_
  case refine_1 =>
    have hm := List.mem_map_of_mem (f := (·.pa)) hm
    rw [hpas, List.mem_reverse] at hm
    exact hp.mem_iff.mpr <| List.mem_append_right _ <| List.mem_append_left _ hm
  case refine_2 =>
    have hm := List.mem_map_of_mem (f := (·.addr)) hm
    rw [haddrs] at hm
    exact l.objects.2 ▸ List.mem_append_left _ hm
  have hz : s.task.pages.diff s.task.pages = [] := by simpa using diff_append s.task.pages []
  rw [hpas, haddrs, hz, l.objects.2, diff_append] at hr
  refine ⟨_, (ExceptT.run_bind_ok get_run).trans hr, hn.diff, fun t => ?_⟩
  rw [hn.mem_sdiff_iff, List.mem_reverse]

variable {x o : Word} (l : Loaded F p { s₀ with live := x :: s₀.live, objects := o :: s₀.objects } es s)
  (hx : x ∉ s₀.live) (ht : ∀ t ∈ Pte.tables s₀.mem p, t ∈ s₀.live)

include l hx ht

-- The page and the object for the headers are freed when the loader has finished.
theorem finish : x ∈ s.live ∧ o ∈ s.objects ∧
    Loaded F p s₀ es { s with live := s.live.erase x, objects := s.objects.erase o } := by
  have ⟨hn, ts, hp, hlen, he⟩ := l.live
  have hd := List.nodup_append.mp <| hp.nodup_iff.mp hn
  have hxts : x ∉ ts := fun hc => hd.2.2 _ hc _ (by simp) rfl
  have hxpas : x ∉ es.map (·.page.pa) := fun hc => (List.nodup_append.mp hd.2.1).2.2 _ hc _ (by simp) rfl
  have ⟨hno, ho⟩ := l.objects
  have hoaddrs : o ∉ (es.map (·.page.addr)).reverse := fun hc => by
    rw [ho, List.nodup_append] at hno
    exact hno.2.2 _ hc _ (by simp) rfl
  refine ⟨l.live_subset List.mem_cons_self, ho ▸ by simp, ?_⟩
  constructor
  case userPte => exact l.userPte
  case pages   => exact l.pages
  case entries => exact l.entries
  case apart   => exact l.apart
  case maps    => exact l.maps
  case tables  =>
    intro t hm
    refine (List.mem_erase_of_ne fun hc => ?_).mpr <| l.tables t hm
    subst hc
    rw [he] at hm
    exact hm.elim (fun h => hx <| ht t h) hxts
  case live    =>
    refine ⟨hn.erase x, ts, ?_, hlen, he⟩
    refine (hp.erase x).trans ?_
    rw [List.erase_append_right _ hxts, List.erase_append_right _ hxpas, List.erase_cons_head]
  case objects =>
    refine ⟨hno.erase o, ?_⟩
    simp only
    rw [ho, List.erase_append_right _ hoaddrs, List.erase_cons_head]

-- The cleanup from the label `in_load_fail` on.
theorem fail_run (hp : s₀.task.userPte = p) (hd : [ustackPa, kstackPa, tfp].Nodup)
    (hl : ∀ t ∈ [ustackPa, kstackPa, tfp], t ∈ s₀.live ∧ t ∉ Pte.tables s₀.mem p) :
    ∃ s₁ s₂ s', taskRemoveAllPage.run s = (.ok (), s₁) ∧ (pmemFree x).run s₁ = (.ok (), s₂) ∧
      (afterEhdr o ustackPa kstackPa tfp).run s₂ = (.ok (), s') ∧ Freed [ustackPa, kstackPa, tfp] s₀ s' := by
  have ⟨live', he, hn, hm⟩ := l.removeAll_run
  have hiff (t : Word) : t ∈ s.live ∧ t ∉ es.map (·.page.pa) ∧ t ∉ Pte.tables s.mem p ↔
      t ∈ x :: s₀.live ∧ t ∉ Pte.tables s₀.mem p := l.mem_live_iff t
  have hin (t : Word) (h : t ∈ x :: s₀.live ∧ t ∉ Pte.tables s₀.mem p) : t ∈ live' := (hm t).mpr <| by
    have := (hiff t).mpr h
    exact ⟨this.1, this.2.1⟩
  have htree : Tree s.mem s.task.userPte := l.userPte ▸ l.maps.tree
  have hf : (afterEhdr o ustackPa kstackPa tfp).run {
      task    := { s.task with pages := [] }
      mem     := s.mem
      live    := live'.erase x
      objects := o :: s₀.objects
    } = (afterUstack ustackPa kstackPa tfp).run {
      task    := { s.task with pages := [] }
      mem     := s.mem
      live    := live'.erase x
      objects := s₀.objects
    } := by
    refine (ExceptT.run_bind_ok <| kfree_run List.mem_cons_self).trans ?_
    rw [List.erase_cons_head]
  have hh : ∀ t ∈ [ustackPa, kstackPa, tfp], t ∈ live'.erase x := fun t htm => by
    have ⟨h₁, h₂⟩ := hl t htm
    exact (List.mem_erase_of_ne fun (hc : t = x) => hx <| hc ▸ h₁).mpr <| hin t ⟨List.mem_cons_of_mem _ h₁, h₂⟩
  have ⟨live'', he', hn', hm'⟩ := @afterUstack_run tfp ustackPa kstackPa {
    task    := { s.task with pages := [] }
    mem     := s.mem
    live    := live'.erase x
    objects := s₀.objects
  } htree hd hh (hn.erase x)
  have hxl : x ∈ live' := hin x ⟨List.mem_cons_self, fun hc => hx <| ht x hc⟩
  refine ⟨_, _, _, he, pmemFree_run hxl, hf.trans he', rfl, ⟨hn', fun t => ?_⟩, rfl⟩
  have := hiff t
  have hne : t ∈ s₀.live → t ≠ x := fun h hc => hx <| hc ▸ h
  rw [hm' t, hn.mem_erase_iff, hm t, hp, l.userPte]
  rw [List.mem_cons] at this
  tauto

end Loaded

end Accounting

end Zgmos.Process
