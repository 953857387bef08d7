import AdaptiveXv6.Family

namespace AdaptiveXv6.Watches

open Process Machine Lifecycle World LifecycleSteps LifecycleCore Stages Signals Exclusion Function

variable {n : Nat} {w v : World n} {e : Lifecycle.Event n} {c : Fin n} {p q z : Slot} {y : Code}

def sawKids : Code → Bool
  | .scan _ _ havekids => havekids
  | .check x | .doze x | .asleep x => x.lk = .wait
  | _ => false

def scanned : Code → Nat
  | .scan _ i _ => i.val
  | .check x | .doze x => if x.lk = .wait then NPROC else 0
  | _ => 0

section Places

theorem sawKids_afterScan {addr : Nat} {i : Slot} {havekids : Bool} (h : sawKids (afterScan addr i havekids)) :
    havekids = true := by
  rw [afterScan] at h
  split at h
  · exact h
  · split at h
    · assumption
    · cases h

theorem scanned_afterScan (addr : Nat) (i : Slot) (havekids : Bool) :
    scanned (afterScan addr i havekids) ≤ i.val + 1 := by
  rw [afterScan, next?]
  split
  · rename_i j hj
    split at hj <;> cases hj
    exact Nat.le_refl _
  · rename_i hj
    split at hj
    · cases hj
    · split
      · simp only [scanned, Site.lk]
        exact Nat.not_lt.mp ‹_›
      · exact Nat.zero_le _

def leaves : Code → Bool
  | .exitSelf _ => true
  | _ => false

theorem leaves_afterScan (addr : Nat) (i : Slot) (havekids : Bool) : leaves (afterScan addr i havekids) = false := by
  rw [afterScan]
  split
  · rfl
  · split <;> rfl

def Calm (y : Code) : Prop := sawKids y = false ∧ scanned y = 0 ∧ leaves y = false

theorem calm_head (x : Site) : Calm x.head := by
  cases x <;> exact ⟨rfl, rfl, rfl⟩

theorem calm_afterFile (status : Int) (fd : Fin NOFILE) : Calm (afterFile status fd) := by
  rw [afterFile]
  split <;> exact ⟨rfl, rfl, rfl⟩

theorem calm_afterReparent (status : Int) (i : Slot) : Calm (afterReparent status i) := by
  rw [afterReparent]
  split <;> exact ⟨rfl, rfl, rfl⟩

theorem calm_inLoop (hy : inLoop y) : Calm y := by
  cases y with
  | take | room | test | post | ret => exact ⟨rfl, rfl, rfl⟩
  | check x =>
    have hx : x.lk ≠ .wait := by simpa [inLoop] using hy
    exact ⟨by simpa [sawKids] using hx, if_neg hx, rfl⟩
  | _ => cases hy

theorem willing_scan (x : Site) : (sawKids x.willing → sawKids (.check x)) ∧
    scanned x.willing ≤ scanned (.check x) ∧ leaves x.willing = false := by
  cases x with
  | write pi i m => exact ⟨nofun, Nat.zero_le _, rfl⟩
  | _ => exact ⟨id, Nat.le_refl _, rfl⟩

theorem holdsWait_of_scanned (h : 0 < scanned y) : holdsWait y = true := by
  cases y with
  | scan => rfl
  | check x | doze x =>
    simp only [scanned] at h
    split at h
    · simpa [holdsWait] using ‹x.lk = .wait›
    · cases h
  | _ => cases h

end Places

def Asleep (w : World n) (q : Slot) : Prop :=
  (sig w.core q).state = .sleeping ∧ ∃ addr, w.code q = .asleep (.wait addr)

def Leaving (w : World n) (z : Slot) : Prop :=
  (sig w.core z).state = .zombie ∨ ∃ status, w.code z = .exitSelf status

def Rousing (w : World n) (p q : Slot) : Prop :=
  ∃ c i, w.core.proc c = some p ∧ w.core.pc c = .wakeup (procChan q) i false .running ∧ i ≤ q

/-- A process sleeps in kwait() only with children, and when one is leaving, the holder of wait_lock is about
to wake it. -/
structure Watched (w : World n) : Prop where
  kids : ∀ q, sawKids (w.code q) → ∃ z, w.parent z = some q
  seen : ∀ q z, w.parent z = some q → z.val < scanned (w.code q) → (sig w.core z).state ≠ .zombie
  chan : ∀ q x, (sig w.core q).state = .sleeping → w.code q = .asleep x → (sig w.core q).chan = x.chan q
  owed : ∀ q z, Asleep w q → w.parent z = some q → Leaving w z →
    ∃ p, w.lock .wait = some p ∧ (Rousing w p q ∨ q = initproc ∧ ∃ status i, w.code p = .wakeInit status i)

theorem boot_watched (n : Nat) : Watched (Lifecycle.boot n) :=
  ⟨nofun, nofun, nofun, nofun⟩

theorem not_rousing (hx : Exclusive w.core) (hp : w.core.proc c = some p)
    (hc : ∀ chan i clock ret, w.core.pc c ≠ .wakeup chan i clock ret) (q : Slot) : ¬Rousing w p q := by
  rintro ⟨d, i, hd, hpc, -⟩
  obtain rfl := hx.unique d c p hd hp
  exact hc _ _ _ _ hpc

theorem rousing_step (hx : Exclusive w.core) {e : Machine.Event n} {k : Kernel n}
    (hk : w.core.step e = some k) (hr : Rousing w p q) (hq : (sig w.core q).state = .sleeping)
    (hchan : (sig w.core q).chan = procChan q) (hs : (sig k q).state = .sleeping)
    (hcore : v.core = k) : Rousing v p q := by
  obtain ⟨c, i, hp, hc, hi⟩ := hr
  rcases waking_step hk hc with ⟨hproc, hpc⟩ | ⟨hproc, hpc, hvisit⟩
  · exact ⟨c, i, by rw [hcore, hproc, hp], by rw [hcore, hpc, hc], hi⟩
  · by_cases hiq : i = q
    · subst hiq
      have hrun : (sig w.core p).state = .running := (hx.running c p hp).mpr (by simp [hc])
      have hne : w.core.proc c ≠ some i := by
        rw [hp]
        rintro ⟨⟩
        rw [hq] at hrun
        cases hrun
      rw [hvisit hne] at hs
      simp [onSignal, hq, hchan] at hs
    · have hlt : i.val < q.val := Nat.lt_of_le_of_ne hi (fun heq => hiq (Fin.ext heq))
      have hnext : i.val + 1 < NPROC := Nat.lt_of_le_of_lt hlt q.isLt
      refine ⟨c, ⟨i.val + 1, hnext⟩, by rw [hcore, hproc, hp], ?_, hlt⟩
      rw [hcore, hpc, afterWakeup, next?, dif_pos hnext]

namespace Watched

theorem of_same (h : Watched w) (hcore : v.core = w.core) (hparent : v.parent = w.parent)
    (hcode : v.code = w.code) (hlock : v.lock .wait = w.lock .wait) : Watched v := by
  refine ⟨?_, ?_, ?_, ?_⟩
  · rw [hcode, hparent]
    exact h.kids
  · rw [hcore, hcode, hparent]
    exact h.seen
  · rw [hcore, hcode]
    exact h.chan
  · simp only [Asleep, Leaving, Rousing, hcore, hcode, hparent, hlock]
    exact h.owed

theorem of_core (h : Watched w) (hx : Exclusive w.core) {e : Machine.Event n} {k : Kernel n}
    (hk : w.core.step e = some k)
    (hzombie : ∀ z, (sig k z).state = .zombie → (sig w.core z).state = .zombie ∨
      ∀ q, w.parent z = some q → scanned (w.code q) = 0 ∧ ¬Asleep w q)
    (hsleep : ∀ c chan q x, e = .sleep c chan → w.core.proc c = some q → w.code q = .asleep x →
      chan = x.chan q ∧ (x.lk = .wait → ∀ z, w.parent z = some q → ¬Leaving { w with core := k } z)) :
    Watched { w with core := k } := by
  refine ⟨h.kids, ?_, ?_, ?_⟩
  · intro q z hz hlt hs
    rcases hzombie z hs with hs | hq
    · exact h.seen q z hz hlt hs
    · rw [show scanned (w.code q) = 0 from (hq q hz).1] at hlt
      cases hlt
  · intro q x hs hq
    rcases sleeping_step hx hk hs with hsame | ⟨c, chan, rfl, hc⟩
    · rw [hsame]
      exact h.chan q x (hsame ▸ hs) hq
    · rw [sleep_effect hk hc, if_pos rfl]
      exact (hsleep c chan q x rfl hc hq).1
  · rintro q z ⟨hs, addr, hq⟩ hz hl
    rcases sleeping_step hx hk hs with hsame | ⟨c, chan, rfl, hc⟩
    · have hs' : (sig w.core q).state = .sleeping := hsame ▸ hs
      have hasleep : Asleep w q := ⟨hs', addr, hq⟩
      have hleaving : Leaving w z := by
        rcases hl with hl | hl
        · rcases hzombie z hl with hl | hno
          · exact .inl hl
          · exact absurd hasleep (hno q hz).2
        · exact .inr hl
      obtain ⟨p, hlock, hr | hi⟩ := h.owed q z hasleep hz hleaving
      · exact ⟨p, hlock, .inl (rousing_step hx hk hr hs' (h.chan q _ hs' hq) hs rfl)⟩
      · exact ⟨p, hlock, .inr hi⟩
    · exact absurd hl ((hsleep c chan q _ rfl hc hq).2 rfl z hz)

theorem of_background (h : Watched w) (hx : Exclusive w.core) {e : Machine.Event n} {k : Kernel n}
    (hb : background e) (hk : w.core.step e = some k)
    (hsleep : ∀ c chan q x, e = .sleep c chan → w.core.proc c = some q → w.code q = .asleep x →
      chan = x.chan q ∧ (x.lk = .wait → ∀ z, w.parent z = some q → ¬Leaving { w with core := k } z)) :
    Watched { w with core := k } := by
  refine h.of_core hx hk (fun z hz => .inl ?_) hsleep
  rcases background_state hx hb hk z with hs | ⟨-, hs⟩
  · exact hs ▸ hz
  · rw [hz] at hs
    cases hs

section Moves

variable (h : Watched w) (hcore : v.core = w.core) (hparent : v.parent = w.parent) (hcode : v.code = update w.code p y)
  (hlock : v.lock .wait = w.lock .wait ∨ w.lock .wait = none ∨ w.lock .wait = some p)
  (hwake : ∀ status i, w.code p ≠ .wakeInit status i)

include h hcore hparent hcode hlock hwake

theorem of_move (hawake : (sig w.core p).state ≠ .sleeping) (hidle : ∀ q, ¬Rousing w p q)
    (hkids : sawKids y → ∃ z, w.parent z = some p)
    (hseen : ∀ z, w.parent z = some p → z.val < scanned y → (sig w.core z).state ≠ .zombie)
    (hself : leaves y = false) : Watched v := by
  refine ⟨?_, ?_, ?_, ?_⟩
  · intro q
    rw [hcode, hparent, update_apply]
    split
    · rename_i hq
      rw [hq]
      exact hkids
    · exact h.kids q
  · intro q z
    rw [hcode, hparent, hcore, update_apply]
    split
    · rename_i hq
      rw [hq]
      exact hseen z
    · exact h.seen q z
  · intro q x
    rw [hcode, hcore, update_apply]
    split
    · rename_i hq
      rw [hq]
      exact fun hs => absurd hs hawake
    · exact h.chan q x
  · rintro q z ⟨hs, addr, hq⟩ hz hl
    rw [hcore] at hs
    rw [hparent] at hz
    have hne : q ≠ p := by
      rintro rfl
      exact hawake hs
    rw [hcode, update_of_ne hne] at hq
    have hleaving : Leaving w z := by
      rcases hl with hl | ⟨status, hl⟩
      · exact .inl (hcore ▸ hl)
      · rw [hcode, update_apply] at hl
        split at hl
        · rw [hl] at hself
          cases hself
        · exact .inr ⟨status, hl⟩
    obtain ⟨p', hp', hr⟩ := h.owed q z ⟨hs, addr, hq⟩ hz hleaving
    have hne' : p' ≠ p := by
      rintro rfl
      rcases hr with hr | ⟨-, status, i, hi⟩
      · exact hidle q hr
      · exact hwake status i hi
    refine ⟨p', ?_, ?_⟩
    · rcases hlock with hlock | hlock | hlock
      · rw [hlock, hp']
      · rw [hlock] at hp'
        cases hp'
      · exact absurd (Option.some.inj (hp'.symm.trans hlock)) hne'
    · simp only [Rousing, hcore, hcode, update_of_ne hne']
      exact hr

theorem of_calm (hawake : (sig w.core p).state ≠ .sleeping) (hidle : ∀ q, ¬Rousing w p q) (hy : Calm y) :
    Watched v := by
  obtain ⟨hkids, hscan, hself⟩ := hy
  refine h.of_move hcore hparent hcode hlock hwake hawake hidle ?_ ?_ hself
  · simp [hkids]
  · simp [hscan]

variable (hx : Exclusive w.core) (hme : w.me c = some p)

include hx hme

theorem of_run (hkids : sawKids y → ∃ z, w.parent z = some p)
    (hseen : ∀ z, w.parent z = some p → z.val < scanned y → (sig w.core z).state ≠ .zombie)
    (hself : leaves y = false) : Watched v := by
  obtain ⟨hpc, hpr⟩ := me_eq_some hme
  refine h.of_move hcore hparent hcode hlock hwake ?_ (not_rousing hx hpr (by simp [hpc])) hkids hseen hself
  simp [me_running hx hme]

theorem of_plain (hy : Calm y) : Watched v := by
  obtain ⟨hpc, hpr⟩ := me_eq_some hme
  refine h.of_calm hcore hparent hcode hlock hwake ?_ (not_rousing hx hpr (by simp [hpc])) hy
  simp [me_running hx hme]

end Moves

variable (h : Watched w) (hx : Exclusive w.core)

include h hx

theorem of_goto (hme : w.me c = some p)
    (hwake : ∀ status i, w.code p ≠ .wakeInit status i) (hy : Calm y) : Watched (w.goto p y) :=
  h.of_plain rfl rfl rfl (.inl rfl) hwake hx hme hy

theorem of_rouse (hme : w.me c = some p) {chan : Nat} {k : Kernel n}
    (hk : w.core.step (.wakeup c chan) = some k) (hlock : w.lock .wait = some p)
    (hscan : sawKids y = false ∧ scanned y = 0)
    (hchan : ∀ q z, Asleep w q → w.parent z = some q → Leaving (w.goto p y) z → chan = procChan q) :
    Watched ({ w with core := k }.goto p y) := by
  obtain ⟨hpc, hpr⟩ := me_eq_some hme
  obtain ⟨hsig, hproc, hwake⟩ := wakeup_effect hk hpc
  have hrun := me_running hx hme
  refine ⟨?_, ?_, ?_, ?_⟩
  · intro q
    simp only [goto, update_apply]
    split
    · simp [hscan.1]
    · exact h.kids q
  · intro q z hz
    simp only [goto, update_apply, hsig]
    split
    · simp [hscan.2]
    · exact h.seen q z hz
  · intro q x
    simp only [goto, update_apply, hsig]
    split
    · rename_i hq
      simp [hq, hrun]
    · exact h.chan q x
  · rintro q z ⟨hs, addr, hq⟩ hz hl
    simp only [goto, hsig] at hs
    have hne : q ≠ p := by
      rintro rfl
      rw [hrun] at hs
      cases hs
    simp only [goto, update_of_ne hne] at hq
    have hl' : Leaving (w.goto p y) z := by
      simp only [Leaving, goto, hsig] at hl ⊢
      exact hl
    refine ⟨p, hlock, .inl ⟨c, 0, ?_, ?_, Nat.zero_le _⟩⟩
    · exact hproc.trans hpr
    · rw [← hchan q z ⟨hs, addr, hq⟩ hz hl']
      exact hwake

theorem of_freeproc {i : Slot} {e : Machine.Event n} {k : Kernel n} (hk : w.core.step e = some k)
    (hsig : ∀ q, sig k q = if q = i then onSignal .freeproc (sig w.core q) else sig w.core q)
    (hkid : ∀ q, w.parent i = some q → sawKids (w.code q) = false)
    (hcode : ∀ status j, w.code i ≠ .wakeInit status j) : Watched ({ w with core := k }.freeproc i) := by
  have hparent : ∀ z q, ({ w with core := k }.freeproc i).parent z = some q → z ≠ i ∧ w.parent z = some q := by
    intro z q hz
    simp only [World.freeproc, goto, setRes, World.adopt, update_apply] at hz
    split at hz
    · cases hz
    · exact ⟨‹_›, hz⟩
  refine ⟨?_, ?_, ?_, ?_⟩
  · intro q hq
    simp only [World.freeproc, goto, setRes, World.adopt, update_apply] at hq ⊢
    split at hq
    · cases hq
    · obtain ⟨z, hz⟩ := h.kids q hq
      refine ⟨z, ?_⟩
      have hzi : z ≠ i := by
        rintro rfl
        rw [hkid q hz] at hq
        cases hq
      rw [if_neg hzi]
      exact hz
  · intro q z hz hlt (hs : (sig k z).state = .zombie)
    obtain ⟨hzi, hz'⟩ := hparent z q hz
    simp only [World.freeproc, goto, setRes, World.adopt, update_apply] at hlt
    rw [hsig, if_neg hzi] at hs
    split at hlt
    · cases hlt
    · exact h.seen q z hz' hlt hs
  · intro q x (hs : (sig k q).state = .sleeping) hq
    simp only [World.freeproc, goto, setRes, World.adopt, update_apply] at hq ⊢
    rw [hsig] at hs ⊢
    split at hq
    · cases hq
    · rename_i hqi
      rw [if_neg hqi] at hs ⊢
      exact h.chan q x hs hq
  · rintro q z ⟨hs, addr, hq⟩ hz hl
    have hs : (sig k q).state = .sleeping := hs
    obtain ⟨hzi, hz'⟩ := hparent z q hz
    simp only [World.freeproc, goto, setRes, World.adopt, update_apply] at hq
    split at hq
    · cases hq
    · rename_i hqi
      have hs' := hs
      rw [hsig, if_neg hqi] at hs'
      have hl' : Leaving w z := by
        simp only [Leaving, World.freeproc, goto, setRes, World.adopt, hsig, if_neg hzi,
          update_of_ne hzi] at hl
        exact hl
      obtain ⟨p, hlock, hr | ⟨hqinit, status, j, hp⟩⟩ := h.owed q z ⟨hs', addr, hq⟩ hz' hl'
      · exact ⟨p, hlock, .inl (rousing_step hx hk hr hs' (h.chan q _ hs' hq) hs rfl)⟩
      · have hpi : p ≠ i := by
          rintro rfl
          exact hcode status j hp
        refine ⟨p, hlock, .inr ⟨hqinit, status, j, ?_⟩⟩
        simp only [World.freeproc, goto, setRes, World.adopt, update_of_ne hpi]
        exact hp

theorem of_adopt (hme : w.me c = some p) {i q₀ : Slot} (hlost : ∀ q, w.parent i = some q → q = p)
    (hnone : ∀ q z, Asleep w q → w.parent z = some q → ¬Leaving w z)
    (hy : Calm y) (hseen : (sig w.core i).state = .zombie → scanned (w.code q₀) = 0)
    (hnew : Leaving w i → q₀ = initproc ∧ w.lock .wait = some p ∧ ∃ status j, y = .wakeInit status j) :
    Watched ((w.adopt i (some q₀)).goto p y) := by
  have hrun := me_running hx hme
  obtain ⟨hkids, hscan, hself⟩ := hy
  refine ⟨?_, ?_, ?_, ?_⟩
  · intro q
    simp only [goto, World.adopt, update_apply]
    split
    · simp [hkids]
    · rename_i hqp
      intro hq
      obtain ⟨z, hz⟩ := h.kids q hq
      have hzi : z ≠ i := by
        rintro rfl
        exact hqp (hlost q hz)
      exact ⟨z, by rw [if_neg hzi]; exact hz⟩
  · intro q z hz
    simp only [goto, World.adopt, update_apply] at hz ⊢
    split
    · simp [hscan]
    · split at hz
      · rename_i hzi
        cases hz
        intro hlt hs
        rw [hseen (hzi ▸ hs)] at hlt
        cases hlt
      · exact h.seen q z hz
  · intro q x
    simp only [goto, World.adopt, update_apply]
    split
    · rename_i hq
      simp [hq, hrun]
    · exact h.chan q x
  · rintro q z ⟨hs, addr, hq⟩ hz hl
    have hne : q ≠ p := by
      rintro rfl
      rw [show (sig w.core q).state = .sleeping from hs] at hrun
      cases hrun
    simp only [goto, World.adopt, update_of_ne hne] at hq
    have hl' : Leaving w z := by
      rcases hl with hl | ⟨status, hl⟩
      · exact .inl hl
      · simp only [goto, World.adopt, update_apply] at hl
        split at hl
        · rw [hl] at hself
          cases hself
        · exact .inr ⟨status, hl⟩
    simp only [goto, World.adopt, update_apply] at hz
    split at hz
    · rename_i hzi
      cases hz
      obtain ⟨hinit, hlock, status, j, rfl⟩ := hnew (hzi ▸ hl')
      exact ⟨p, hlock, .inr ⟨hinit, status, j, by simp [goto]⟩⟩
    · exact absurd hl' (hnone q z ⟨hs, addr, hq⟩ hz)

end Watched

end AdaptiveXv6.Watches
