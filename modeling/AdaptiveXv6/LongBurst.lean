import AdaptiveXv6.Profiles
import AdaptiveXv6.SleepCycle

namespace AdaptiveXv6.LongBurst

open Words Process Ops Machine Scan Sweeps Rounds Runs SleepCycle Profiles Function

variable {s : Kernel 1} {T : Slot → Proc} {t c M N W : Nat} {a : Slot} {x : Proc}

def Yields (a j : Slot) (x : Proc) : Prop :=
  x.state = .runnable → a < j ∧ calcDynamicPriority x = 1

theorem best_first (ha : (T a).state = .runnable) (h : ∀ j, j ≠ a → Yields a j (T j)) :
    (best T NPROC).1 = some a := by
  have hpos := (calcDynamicPriority_bounds (T a)).1
  rw [best_eq ha]
  · intro q hq hr
    exact absurd (h q (ne_of_lt hq) hr).1 (not_lt.mpr (le_of_lt hq))
  · intro q hr
    by_cases hqa : q = a
    · rw [hqa]
    · rw [(h q hqa hr).2]
      exact hpos

theorem hog_tick {O : Slot → Proc → Prop} (hlock : ∀ i, s.lock i = none) (hc : c + 1 < 2 ^ 32)
    (ha : Profile .running 0 c c (T a))
    (hO : ∀ j, j ≠ a → O j (accountWait (u32 (t + 1)) (wakeup ticksChan (T j))))
    (hres : ∀ j x, O j x → O j (rescore x)) (hlow : ∀ j x, j ≠ a → O j x → Yields a j x) :
    ∃ T', Profile .running 0 (c + 1) (c + 1) (T' a) ∧ (∀ j, j ≠ a → O j (T' j)) ∧
      Path Kernel.step (Slots Any) (put s 0 ⟨some a, .running⟩ T t)
        (put s 0 ⟨some a, .running⟩ T' (u32 (t + 1))) := by
  have htick := tick_path (K := Any) (s := s) (c := 0) (t := t) hlock rfl ha.state (fun _ => trivial)
    (fun _ _ => trivial) (fun _ _ => trivial) trivial
  have hcharge := ha.chargeTick hc
  by_cases hover : shouldYield (T a) = true
  · rw [if_pos hover] at htick
    have hyield := yield_path (K := Any) (s := s) (c := 0) (t := u32 (t + 1)) (p := a)
      (T := Function.update (fun i => accountWait (u32 (t + 1)) (wakeup ticksChan (T i))) a
        (chargeTick (T a))) (fun _ => trivial) (hlock a) trivial
    rw [update_idem, update_self] at hyield
    have hprof := hcharge.yield (Nat.le_refl _) (u32 (t + 1))
    generalize yield (u32 (t + 1)) (chargeTick (T a)) = y at hyield hprof
    have hother : ∀ j, j ≠ a → O j (update
        (fun i => accountWait (u32 (t + 1)) (wakeup ticksChan (T i))) a y j) := by
      intro j hj
      rw [update_of_ne hj]
      exact hO j hj
    have hrun : (Function.update (fun i => accountWait (u32 (t + 1)) (wakeup ticksChan (T i))) a y a).state =
        .runnable := by rw [update_self, hprof.state]
    have hturn := turn_path (K := Any) (s := s) (c := 0) (t := u32 (t + 1)) (fun _ => trivial) hlock
      (best_first hrun (fun j hj => hlow j _ hj (hother j hj))) hrun (fun _ => trivial) trivial trivial
    refine ⟨_, ?_, ?_, (htick.trans hyield).trans hturn⟩
    · rw [update_self, update_self]
      exact (hprof.rescore.dispatch _).resume
    · intro j hj
      rw [update_of_ne hj]
      exact hres j _ (hother j hj)
  · rw [if_neg hover] at htick
    refine ⟨_, ?_, ?_, htick⟩
    · rw [update_self]
      exact hcharge
    · intro j hj
      rw [update_of_ne hj]
      exact hO j hj

theorem hog_path {O : Nat → Slot → Proc → Prop} (hlock : ∀ i, s.lock i = none) (hM : M < 2 ^ 32)
    (ha : Profile .running 0 0 0 (T a)) (h₀ : ∀ j, j ≠ a → O 0 j (T j))
    (hO : ∀ w j x t, w < M → j ≠ a → O w j x → O (w + 1) j (accountWait t (wakeup ticksChan x)))
    (hres : ∀ w j x, O w j x → O w j (rescore x))
    (hlow : ∀ w j x, w ≤ M → j ≠ a → O w j x → Yields a j x) :
    ∃ T' t', Profile .running 0 M M (T' a) ∧ (∀ j, j ≠ a → O M j (T' j)) ∧
      Path Kernel.step (Slots Any) (put s 0 ⟨some a, .running⟩ T t)
        (put s 0 ⟨some a, .running⟩ T' t') := by
  induction M with
  | zero => exact ⟨T, t, ha, h₀, .refl (fun _ => trivial)⟩
  | succ M ih =>
    obtain ⟨T₁, t₁, ha₁, hO₁, hpath⟩ := ih (by omega) (fun w j x t hw => hO w j x t (by omega))
      (fun w j x hw => hlow w j x (by omega))
    obtain ⟨T₂, ha₂, hO₂, htick⟩ := hog_tick (t := t₁) (O := O (M + 1)) hlock hM ha₁
      (fun j hj => hO M j _ _ (Nat.lt_succ_self M) hj (hO₁ j hj)) (hres (M + 1))
      (fun j x => hlow (M + 1) j x (Nat.le_refl _))
    exact ⟨T₂, _, ha₂, hO₂, hpath.trans htick⟩

structure Two (a b : Slot) (P Q : Proc → Prop) (T : Slot → Proc) : Prop where
  left : P (T a)
  right : Q (T b)
  rest : ∀ j, j ≠ a → j ≠ b → (T j).state = .unused

def Asleep (chan e : Nat) (x : Proc) : Prop := Profile .sleeping 0 0 e x ∧ x.chan = chan

variable {b : Slot} {P Q P' Q' : Proc → Prop} {chan e : Nat}

theorem Two.swap (h : Two a b P Q T) : Two b a Q P T := ⟨h.right, h.left, fun j hb ha => h.rest j ha hb⟩

theorem Two.map (h : Two a b P Q T) {f : Slot → Proc → Proc} (hP : ∀ x, P x → P' (f a x))
    (hQ : ∀ x, Q x → Q' (f b x)) (hf : ∀ j x, j ≠ a → j ≠ b → x.state = .unused → f j x = x) :
    Two a b P' Q' (fun j => f j (T j)) := by
  refine ⟨hP _ h.left, hQ _ h.right, ?_⟩
  intro j ha hb
  rw [hf j _ ha hb (h.rest j ha hb)]
  exact h.rest j ha hb

theorem Two.update (h : Two a b P Q T) (hab : a ≠ b) {x : Proc} (hx : P' x) :
    Two a b P' Q (Function.update T a x) := by
  refine ⟨?_, ?_, ?_⟩
  · rw [update_self]
    exact hx
  · rw [update_of_ne hab.symm]
    exact h.right
  · intro j ha hb
    rw [update_of_ne ha]
    exact h.rest j ha hb

theorem Two.block (hlock : ∀ i, s.lock i = none) (hab : a ≠ b)
    (h : Two a b (Profile .running 0 c e) (Profile .runnable 0 M N) T) (hc : c ≤ e) (he : e < 2 ^ 31)
    (chan : Nat) :
    ∃ T', Two a b (Asleep chan ((c + e) / 2)) (Profile .running 0 M N) T' ∧
      Path Kernel.step (Slots Any) (put s 0 ⟨some a, .running⟩ T t) (put s 0 ⟨some b, .running⟩ T' t) := by
  have hsleep := sleep_path (K := Any) (s := s) (c := 0) (T := T) (t := t) (fun _ => trivial) (hlock a)
    chan trivial
  have htwo : Two a b (Asleep chan ((c + e) / 2)) (Profile .runnable 0 M N)
      (Function.update T a (sleep chan t (T a))) := h.update hab (h.left.sleep hc he chan t)
  generalize Function.update T a (sleep chan t (T a)) = T₁ at hsleep htwo
  have hyields : ∀ j, j ≠ b → Yields b j (T₁ j) := by
    intro j hb hr
    by_cases ha : j = a
    · rw [ha, htwo.left.1.state] at hr
      cases hr
    · rw [htwo.rest j ha hb] at hr
      cases hr
  have hturn := turn_path (K := Any) (s := s) (c := 0) (t := t) (fun _ => trivial) hlock
    (best_first htwo.right.state hyields) htwo.right.state (fun _ => trivial) trivial trivial
  have hscored : Two a b (Asleep chan ((c + e) / 2)) (Profile .runnable 0 M N) (fun i => rescore (T₁ i)) := by
    refine htwo.map (f := fun _ => rescore) ?_ (fun x hx => hx.rescore) ?_
    · intro x hx
      rw [rescore_eq (by simp [hx.1.state])]
      exact hx
    · intro j x _ _ hx
      exact rescore_eq (by simp [hx])
  refine ⟨_, (hscored.swap.update hab.symm ?_).swap, hsleep.trans hturn⟩
  exact (htwo.right.rescore.dispatch t).resume

theorem Two.wake (hlock : ∀ i, s.lock i = none) (hab : a ≠ b)
    (h : Two a b (Asleep chan e) (Profile .running 0 M N) T) :
    ∃ T', Two a b (Profile .runnable 0 0 e) (Profile .running 0 M N) T' ∧
      Path Kernel.step (Slots Any) (put s 0 ⟨some b, .running⟩ T t) (put s 0 ⟨some b, .running⟩ T' t) := by
  have hwake : Path Kernel.step (Slots Any) (put s 0 ⟨some b, .running⟩ T t) _ :=
    wake_path hlock (fun _ => trivial) chan .running (.inr rfl) (fun _ => trivial)
  refine ⟨_, ?_, hwake⟩
  refine h.map (f := fun i x => if some b = some i then x else wakeup chan x) ?_ ?_ ?_
  · intro x hx
    rw [if_neg (fun hh => hab (Option.some.inj hh).symm)]
    exact hx.1.wakeup hx.2
  · intro x hx
    rw [if_pos rfl]
    exact hx
  · intro j x _ hb hx
    rw [if_neg (fun hh => hb (Option.some.inj hh).symm)]
    exact wakeup_eq (.inl (by simp [hx]))

theorem Two.hog (hlock : ∀ i, s.lock i = none) (hab : a ≠ b) {R : Nat → Proc → Prop} (hM : M < 2 ^ 32)
    (h : Two a b (R 0) (Profile .running 0 0 0) T)
    (hR : ∀ w x t, w < M → R w x → R (w + 1) (accountWait t (wakeup ticksChan x)))
    (hres : ∀ w x, R w x → R w (rescore x)) (hlow : ∀ w x, w ≤ M → R w x → Yields b a x) :
    ∃ T' t', Two a b (R M) (Profile .running 0 M M) T' ∧
      Path Kernel.step (Slots Any) (put s 0 ⟨some b, .running⟩ T t) (put s 0 ⟨some b, .running⟩ T' t') := by
  have hinit : ∀ j, j ≠ b → (j = a → R 0 (T j)) ∧ (j ≠ a → (T j).state = .unused) :=
    fun j hb => ⟨fun ha => by rw [ha]; exact h.left, fun ha => h.rest j ha hb⟩
  obtain ⟨T', t', hb, hO, hpath⟩ := hog_path (t := t)
    (O := fun w j x => (j = a → R w x) ∧ (j ≠ a → x.state = .unused)) hlock hM h.right hinit
    (fun w j x t hw hb hx => ⟨fun ha => hR w x t hw (hx.1 ha), fun ha => by
      rw [wakeup_eq (.inl (by simp [hx.2 ha])), accountWait_eq (by simp [hx.2 ha])]
      exact hx.2 ha⟩)
    (fun w j x hx => ⟨fun ha => hres w x (hx.1 ha), fun ha => by rw [rescore_state]; exact hx.2 ha⟩)
    (fun w j x hw hb hx hr => by
      by_cases ha : j = a
      · rw [ha]
        exact hlow w x hw (hx.1 ha) hr
      · rw [hx.2 ha] at hr
        cases hr)
  exact ⟨T', t', ⟨(hO a hab).1 rfl, hb, fun j ha hb => (hO j hb).2 ha⟩, hpath⟩

theorem forked_path : ∃ s T, (∀ i, s.lock i = none) ∧
    Two 0 1 (Profile .running 0 0 0) (Profile .runnable 0 0 0) T ∧
    Path Kernel.step (Slots Any) (boot 1) (put s 0 ⟨some 0, .running⟩ T 0) := by
  have hturn := turn_only (s := boot 1) (c := 0) (t := 0) (x := userinit) (fun _ => rfl) rfl rfl
  rw [← boot_put] at hturn
  have hany : Path Kernel.step (Slots Any) _ _ := hturn.mono (fun _ _ _ => trivial)
  refine ⟨numbered (boot 1), _, fun _ => rfl, ?_, hany.trans
    (fork_path (q := 1) rfl rfl (fun _ => trivial) trivial trivial)⟩
  refine ⟨⟨rfl, rfl, rfl, rfl, rfl⟩, ?_, ?_⟩
  · rw [update_self]
    exact newborn_profile _ _ _
  · intro j h0 h1
    rw [update_of_ne h1]
    exact congrArg Proc.state (only_of_ne h0 _)

theorem burst_path (hN : N < 2 ^ 31) : ∃ s T t, (∀ i, s.lock i = none) ∧
    Two 1 0 (Profile .runnable 0 0 N) (Profile .running 0 0 0) T ∧
    Path Kernel.step (Slots Any) (boot 1) (put s 0 ⟨some 0, .running⟩ T t) := by
  obtain ⟨s, T, hlock, hT, hforked⟩ := forked_path
  obtain ⟨T₁, hT₁, hblock⟩ := hT.block (t := 0) hlock (by decide) (Nat.le_refl 0) (by omega) 7
  have hasleep : ∀ x t, Asleep 7 0 x → accountWait t (wakeup ticksChan x) = x ∧ rescore x = x := by
    intro x t hx
    rw [wakeup_eq (.inr (by rw [hx.2]; decide))]
    exact ⟨accountWait_eq (by simp [hx.1.state]) t, rescore_eq (by simp [hx.1.state])⟩
  obtain ⟨T₂, t₂, hT₂, hhog⟩ := Two.hog (R := fun _ => Asleep 7 0) (M := N) (t := 0) hlock (by decide)
    (by omega) hT₁ (fun _ x t _ hx => by rw [(hasleep x t hx).1]; exact hx)
    (fun _ x hx => by rw [(hasleep x 0 hx).2]; exact hx)
    (fun _ x _ hx hr => by rw [hx.1.state] at hr; cases hr)
  obtain ⟨T₃, hT₃, hwake⟩ := hT₂.wake (t := t₂) hlock (by decide)
  obtain ⟨T₄, hT₄, hblock'⟩ := hT₃.swap.block (t := t₂) hlock (by decide) (Nat.le_refl N) hN 8
  obtain ⟨T₅, hT₅, hwake'⟩ := hT₄.wake (t := t₂) hlock (by decide)
  have hhalf : (N + N) / 2 = N := by omega
  rw [hhalf] at hT₅
  exact ⟨s, T₅, t₂, hlock, hT₅, (((hforked.trans hblock).trans hhog).trans (hwake.trans hblock')).trans hwake'⟩

theorem long_score {w : Nat} (hW : W < 2 ^ 29) (hw : w ≤ W) (h : Profile .runnable w 0 (2 * W + 9) x) :
    calcDynamicPriority x = 1 := by
  have hcpu : classify (2 * W + 9) = .cpuBound := by
    rw [classify, if_neg (show ¬2 * W + 9 ≤ 2 by omega), if_pos (show 8 ≤ 2 * W + 9 by omega)]
  rw [h.score (by omega) (by omega), hcpu, basePriority, PRIO_BASE_CPU_BOUND]
  omega

theorem behind_path (hW : W < 2 ^ 29) : ∃ s T t, (∀ i, s.lock i = none) ∧
    Profile .runnable W 0 (2 * W + 9) (T 1) ∧ Profile .runnable 0 0 0 (T 2) ∧
    Path Kernel.step (Slots Any) (boot 1) (put s 0 ⟨some 0, .running⟩ T t) := by
  obtain ⟨s, T, t, hlock, hT, hpath⟩ := burst_path (N := 2 * W + 9) (by omega)
  obtain ⟨T', t', hT', hhog⟩ := Two.hog (R := fun w => Profile .runnable w 0 (2 * W + 9)) (M := W) (t := t)
    hlock (by decide) (by omega) hT
    (fun w x t hw hx => by rw [wakeup_eq (.inl (by simp [hx.state]))]; exact hx.accountWait (by omega) t)
    (fun w x hx => hx.rescore)
    (fun w x hw hx _ => ⟨by decide, long_score hW hw hx⟩)
  refine ⟨numbered s, _, t', hlock, ?_, ?_, (hpath.trans hhog).trans
    (fork_path (q := 2) (hlock 2) (hT'.rest 2 (by decide) (by decide)) (fun _ => trivial) trivial trivial)⟩
  · rw [update_of_ne (by decide)]
    exact hT'.left
  · rw [update_self]
    exact newborn_profile _ _ _

end AdaptiveXv6.LongBurst
