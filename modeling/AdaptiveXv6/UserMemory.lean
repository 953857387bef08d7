import AdaptiveXv6.SpaceRuns

namespace AdaptiveXv6.UserMemory

open MemLayout Bytes Programs PageTables PageOwnership SpaceSteps PageFills UserViews UserCopies UserWrites UserReads
  Runs

variable {P : Type} [DecidableEq P] {s t : Vm P} {p : P} {lo trampoline va k : Nat}

theorem copyin_written {src : List Byte} (hm : s.mode p ≠ .unused) (h : Written lo trampoline p va src s true k t) :
    Wp (copyin lo p (some p) va src.length) t (fun r _ => r = (true, src)) fun _ => False := by
  obtain rfl := h.done.mp rfl
  have hm' : t.mode p ≠ .unused := by rw [h.kept.mode]; exact hm
  refine (copyinLoop_delivered _ h.kept.sound hm' va src.length (Nat.le_refl _)).imp ?_
  rintro ⟨r, l⟩ u ⟨k, hd⟩
  have hmapped : ∀ j < src.length, ∃ e, (t.pt (some p)).leaf ((va + j) / PGSIZE) = some e ∧ e.user = true := by
    intro j hj
    obtain ⟨e, he, hok, -⟩ := h.mapped j hj
    exact ⟨e, he, (Bool.and_eq_true_iff.mp hok).1⟩
  have hr : r = true := by
    by_contra hne
    have hlt : k < src.length := Nat.lt_of_le_of_ne hd.le fun heq => hne (hd.done.mpr heq)
    obtain ⟨e, he, huser⟩ := hmapped k hlt
    rcases hd.failed (Bool.eq_false_iff.mpr hne) with hbad | ⟨hnone, -⟩
    · rw [suitable, he] at hbad
      rw [show e.user = false from hbad] at huser
      cases huser
    · rw [hnone] at he
      cases he
  obtain rfl := hd.done.mp hr
  have hdata := hd.data
  dsimp only at hdata
  rw [hr, hdata, h.view, List.take_length, image_store]

theorem user_copies (h : Sound lo trampoline s) (hm : s.mode p ≠ .unused) (va : Nat) :
    (∀ src, Wp (copyout lo p (some p) va src) s
      (fun r t => ∃ k, Written lo trampoline p va src s r k t ∧
        (r = true → Wp (copyin lo p (some p) va src.length) t (fun r' _ => r' = (true, src)) fun _ => False))
      fun _ => False) ∧
    ∀ len, Wp (copyin lo p (some p) va len) s (fun r t => ∃ k, Delivered lo trampoline p va len s r k t)
      fun _ => False := by
  refine ⟨fun src => ?_, fun len => copyinLoop_delivered _ h hm va len (Nat.le_refl _)⟩
  refine (copyoutLoop_written _ h hm va src (Nat.le_refl _)).imp ?_
  rintro r t ⟨k, hk⟩
  refine ⟨k, hk, ?_⟩
  rintro rfl
  exact copyin_written hm hk

theorem user_copies_lazy : ∃ s : Vm Unit, s.sz () = 4096 ∧ (s.pt (some ())).leaf 0 = none ∧
    Wp (copyout 0x87FF0 () (some ()) 4094 [7, 8]) s
      (fun r t => r = true ∧ view t () = store (view s ()) (4094, [7, 8])) fun _ => False := by
  have hok : ((exec (SpaceRuns.step (P := Unit) 0x87FF0 0x80007) (.ok (SpaceRuns.start 0x87FF0 fun _ => true))
      [.userinit (), .sbrk () 4096 true]).any fun x => x.toOption.any fun s => s.mode () = .used && s.sz () = 4096 &&
        (s.pt (some ())).leaf 0 = none && 3 ≤ s.free.length && s.luck 0 && s.luck 1 && s.luck 2) = true := by
    decide +kernel
  obtain ⟨x, hx, hprop⟩ := (Option.any_eq_true _ _).mp hok
  obtain ⟨r, hr, -⟩ := exists_script hx
  obtain ⟨s, hs, hb⟩ := SpaceRuns.run_between (by decide) r 2
  rw [show r.state 2 = x from hr] at hs
  rw [hs] at hprop
  simp only [Except.toOption, Option.any_some, Bool.and_eq_true, decide_eq_true_eq] at hprop
  obtain ⟨⟨⟨⟨⟨⟨hmode, hsz⟩, hleaf⟩, hfree⟩, hluck₀⟩, hluck₁⟩, hluck₂⟩ := hprop
  refine ⟨s, hsz, hleaf, ((user_copies hb.sound (by rw [hmode]; decide) 4094).1 [7, 8]).imp ?_⟩
  rintro r t ⟨k, hk, -⟩
  have hpage : ∀ j < 2, (4094 + j) / PGSIZE = 0 := by decide
  have hr : r = true := by
    by_contra hne
    have hlt : k < 2 := Nat.lt_of_le_of_ne hk.le fun heq => hne (hk.done.mpr heq)
    rcases hk.failed (Bool.eq_false_iff.mpr hne) with hbad | ⟨-, hshort⟩
    · rw [suitable, hpage k hlt, hleaf, hsz] at hbad
      exact absurd hbad (by decide)
    · have hone : touched 4094 (k + 1) = 1 := by
        rcases (show k = 0 ∨ k = 1 by omega) with rfl | rfl <;> rfl
      rw [hone, missing, show 4094 / PGSIZE = 0 from rfl, hleaf] at hshort
      refine hshort ⟨hfree, fun j hj => ?_⟩
      have hj' : j < 3 := hj
      rcases (show j = 0 ∨ j = 1 ∨ j = 2 by omega) with rfl | rfl | rfl
      · exact hluck₀
      · exact hluck₁
      · exact hluck₂
  have hview := hk.view
  rw [hk.done.mp hr] at hview
  exact ⟨hr, hview⟩

end AdaptiveXv6.UserMemory
