import AdaptiveXv6.UserReads

namespace AdaptiveXv6.SpaceCalls

open MemLayout Programs PageTables AddressSpaces SpaceSteps SpaceCopies UserWrites UserReads

variable {P : Type} [DecidableEq P] {s : Vm P} {p : P} {lo trampoline : Nat}

variable (h : Sound lo trampoline s) (hm : s.mode p ≠ .unused)

include h hm

theorem copyout_spec (dstva : Nat) (src : List Bytes.Byte) :
    Wp (copyout lo p (some p) dstva src) s (fun _ t => Kept lo trampoline p s t) fun _ => False := by
  refine (copyoutLoop_written _ h hm dstva src (Nat.le_refl _)).imp ?_
  rintro _ t ⟨k, hwritten⟩
  exact hwritten.kept

theorem copyin_spec (srcva len : Nat) :
    Wp (copyin lo p (some p) srcva len) s (fun _ t => Kept lo trampoline p s t) fun _ => False := by
  refine (copyinLoop_delivered _ h hm srcva len (Nat.le_refl _)).imp ?_
  rintro _ t ⟨k, hdelivered⟩
  exact hdelivered.kept

theorem kwait_spec {c : P} (addr : Nat) (xstate : List Bytes.Byte) :
    Wp (kwait lo p c addr xstate) s (fun _ t => Sound lo trampoline t ∧ SameArgs s t) fun _ => False := by
  have hfree : ∀ t : Vm P, Sound lo trampoline t → SameArgs s t →
      Wp (do freeproc lo c; pure true) t (fun _ t => Sound lo trampoline t ∧ SameArgs s t) fun _ => False :=
    fun t ht hsame => (freeproc_sound ht c).bind fun _ _ hu =>
      wp_pure ⟨hu.1, hsame.trans (sameArgs_elsewhere hu.2.toElsewhere)⟩
  rw [kwait]
  refine wp_ite (fun _ => ?_) fun _ => ?_
  · refine (copyout_spec h hm addr xstate).bind ?_
    rintro r t hkept
    cases r with
    | true =>
      rw [if_pos rfl]
      exact hfree t hkept.sound hkept.args
    | false =>
      rw [if_neg Bool.false_ne_true]
      exact wp_pure ⟨hkept.sound, hkept.args⟩
  · exact hfree s h fun _ => rfl

theorem sysPipe_spec {k : Nat} (hk : s.extra (.pipe k) = 0)
    (files fds : Bool) (fdarray : Nat) (fd0 fd1 : List Bytes.Byte) :
    Wp (sysPipe lo p k files fds fdarray fd0 fd1) s (fun _ t => Sound lo trampoline t ∧ SameArgs s t)
      fun _ => False := by
  have hback : ∀ t : Vm P, Sound lo trampoline t → SameArgs s t →
      Wp (do freeExtra lo (.pipe k); pure false) t (fun _ t => Sound lo trampoline t ∧ SameArgs s t) fun _ => False :=
    fun t ht hsame => (freeExtra_sound ht fun _ => by simp).bind fun _ _ hu =>
      wp_pure ⟨hu.1, hsame.trans (sameArgs_pipe hu.2)⟩
  rw [sysPipe]
  refine (pipealloc_spec h hk files).bind ?_
  rintro r s₁ ⟨h₁, hmode, hargs⟩
  have hm₁ : s₁.mode p ≠ .unused := by rw [hmode]; exact hm
  cases r with
  | false => exact wp_pure ⟨h₁, hargs⟩
  | true =>
    rw [if_pos rfl]
    cases fds with
    | false => exact hback s₁ h₁ hargs
    | true =>
      rw [if_pos rfl]
      refine (copyout_spec h₁ hm₁ fdarray fd0).bind ?_
      rintro r s₂ hkept
      have hargs₂ := hargs.trans hkept.args
      cases r with
      | false => exact hback s₂ hkept.sound hargs₂
      | true =>
        rw [if_pos rfl]
        refine (copyout_spec hkept.sound (by rw [hkept.mode]; exact hm₁) _ fd1).bind ?_
        rintro r s₃ hkept₃
        have hargs₃ := hargs₂.trans hkept₃.args
        cases r with
        | false => exact hback s₃ hkept₃.sound hargs₃
        | true => exact wp_pure ⟨hkept₃.sound, hargs₃⟩

end AdaptiveXv6.SpaceCalls
