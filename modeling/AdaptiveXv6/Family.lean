import AdaptiveXv6.Stages

namespace AdaptiveXv6.Family

open Process Machine Lifecycle World LifecycleSteps LifecycleCore Forks Stages Signals Exclusion Function

variable {n : Nat} {w v : World n} {e : Lifecycle.Event n} {c : Fin n} {p z : Slot} {y : Code}

def unborn : Code → Option Slot
  | .forkCopy np | .forkParent np => some np
  | _ => none

def orphaned : Code → Nat
  | .reparent _ i => i.val
  | .wakeInit _ i => i.val + 1
  | .wakeParent _ | .exitSelf _ | .exitRelease | .exited => NPROC
  | _ => 0

theorem unborn_making (h : making y = none) : unborn y = none := by
  cases y with
  | forkCopy | forkParent => cases h
  | _ => rfl

theorem making_unborn {np : Slot} (h : unborn y = some np) : making y = some np := by
  cases y with
  | forkCopy | forkParent => exact h
  | _ => cases h

theorem orphaned_of_not_exits (h : exits y = false) : orphaned y = 0 := by
  cases y with
  | reparent | wakeInit | wakeParent | exitSelf | exitRelease | exited => cases h
  | _ => rfl

theorem orphaned_afterFile (status : Int) (fd : Fin NOFILE) : orphaned (afterFile status fd) = 0 := by
  rw [afterFile]
  split <;> rfl

theorem orphaned_afterReparent (status : Int) (i : Slot) : orphaned (afterReparent status i) = i.val + 1 := by
  rw [afterReparent, next?]
  split
  · rename_i j hj
    split at hj <;> cases hj
    rfl
  · rename_i hj
    split at hj
    · cases hj
    · have := i.isLt
      simp only [orphaned]
      omega

/-- Every parent could run, and a slot has a parent as soon as its kfork() has set it. -/
structure Related (w : World n) : Prop where
  alive : ∀ z q, w.parent z = some q → alive (sig w.core q).state = true
  unused : ∀ z, (sig w.core z).state = .unused → w.parent z = none
  unborn : ∀ p np, unborn (w.code p) = some np → w.parent np = none
  left : ∀ p z, w.parent z = some p → orphaned (w.code p) ≤ z.val

theorem boot_related (n : Nat) : Related (Lifecycle.boot n) :=
  ⟨nofun, fun _ _ => rfl, nofun, nofun⟩

namespace Related

variable (h : Related w)

include h

theorem of_same (hcore : v.core = w.core) (hparent : v.parent = w.parent) (hcode : v.code = w.code) : Related v := by
  refine ⟨?_, ?_, ?_, ?_⟩
  · rw [hcore, hparent]
    exact h.alive
  · rw [hcore, hparent]
    exact h.unused
  · rw [hcode, hparent]
    exact h.unborn
  · rw [hcode, hparent]
    exact h.left

theorem of_core {k : Kernel n}
    (halive : ∀ q, Signals.alive (sig w.core q).state = true → Signals.alive (sig k q).state = true ∨
      ∀ z, w.parent z ≠ some q)
    (hunused : ∀ z, (sig k z).state = .unused → (sig w.core z).state = .unused) :
    Related { w with core := k } := by
  refine ⟨?_, fun z hz => h.unused z (hunused z hz), h.unborn, h.left⟩
  intro z q hz
  exact (halive q (h.alive z q hz)).resolve_right (fun hnone => hnone z hz)

theorem of_background (hx : Exclusive w.core) {e : Machine.Event n} {k : Kernel n}
    (hb : background e) (hk : w.core.step e = some k) : Related { w with core := k } := by
  refine h.of_core (fun q hq => .inl ?_) (fun z hz => ?_)
  · rcases background_state hx hb hk q with hs | ⟨-, hs⟩
    · rw [hs]
      exact hq
    · exact hs
  · rcases background_state hx hb hk z with hs | ⟨-, hs⟩
    · rw [← hs]
      exact hz
    · rw [hz] at hs
      cases hs

theorem of_goto (hborn : ∀ np, Family.unborn y = some np → w.parent np = none)
    (hleft : ∀ z, w.parent z = some p → orphaned y ≤ z.val) : Related (w.goto p y) := by
  refine ⟨h.alive, h.unused, ?_, ?_⟩
  · intro q np hq
    simp only [goto, update_apply] at hq
    split at hq
    · exact hborn np hq
    · exact h.unborn q np hq
  · intro q z hz
    simp only [goto, update_apply]
    split
    · rename_i hq
      exact hleft z (hq ▸ hz)
    · exact h.left q z hz

theorem of_plain (hmaking : making y = none) (horphaned : orphaned y = 0) : Related (w.goto p y) := by
  refine h.of_goto ?_ ?_
  · intro np hnp
    rw [unborn_making hmaking] at hnp
    cases hnp
  · intro z _
    rw [horphaned]
    exact Nat.zero_le _

theorem of_exit (hp : orphaned y = orphaned (w.code p)) (hmaking : making y = none) : Related (w.goto p y) := by
  refine h.of_goto ?_ ?_
  · intro np hnp
    rw [unborn_making hmaking] at hnp
    cases hnp
  · intro z hz
    rw [hp]
    exact h.left p z hz

theorem of_freeproc {i : Slot} {k : Kernel n} (hi : Signals.alive (sig w.core i).state = false)
    (hsig : ∀ q, sig k q = if q = i then onSignal .freeproc (sig w.core q) else sig w.core q) :
    Related ({ w with core := k }.freeproc i) := by
  have hparent : ∀ z q, ({ w with core := k }.freeproc i).parent z = some q → z ≠ i ∧ w.parent z = some q := by
    intro z q hz
    simp only [World.freeproc, goto, setRes, World.adopt, update_apply] at hz
    split at hz
    · cases hz
    · exact ⟨‹_›, hz⟩
  have hnone : ∀ z, w.parent z = none → ({ w with core := k }.freeproc i).parent z = none := by
    intro z hz
    simp only [World.freeproc, goto, setRes, World.adopt, update_apply]
    split
    · rfl
    · exact hz
  refine ⟨?_, ?_, ?_, ?_⟩
  · intro z q hz
    have hq := h.alive z q (hparent z q hz).2
    have hne : q ≠ i := by
      rintro rfl
      rw [hi] at hq
      cases hq
    change Signals.alive (sig k q).state = true
    rw [hsig, if_neg hne]
    exact hq
  · intro z (hz : (sig k z).state = .unused)
    rw [hsig] at hz
    split at hz
    · rename_i hzi
      subst hzi
      simp [World.freeproc, goto, setRes, World.adopt]
    · exact hnone z (h.unused z hz)
  · intro q np hq
    simp only [World.freeproc, goto, setRes, World.adopt, update_apply] at hq
    split at hq
    · cases hq
    · exact hnone np (h.unborn q np hq)
  · intro q z hz
    obtain ⟨-, hz'⟩ := hparent z q hz
    simp only [World.freeproc, goto, setRes, World.adopt, update_apply]
    split
    · exact Nat.zero_le _
    · exact h.left q z hz'

theorem of_adopt (hst : Staged w) {status : Int} {i : Slot}
    (hp : w.code p = .reparent status i) (hi : w.parent i = some p) :
    Related ((w.adopt i (some initproc)).goto p (.wakeInit status i)) := by
  have hne : p ≠ initproc := hst.ne_init (by rw [hp]; rfl)
  refine ⟨?_, ?_, ?_, ?_⟩
  · intro z q hz
    simp only [goto, World.adopt, update_apply] at hz
    split at hz
    · cases hz
      exact hst.alive
    · exact h.alive z q hz
  · intro z hz
    have hzi : z ≠ i := by
      rintro rfl
      rw [h.unused z hz] at hi
      cases hi
    simp only [goto, World.adopt, update_of_ne hzi]
    exact h.unused z hz
  · intro q np hq
    simp only [goto, World.adopt, update_apply] at hq
    split at hq
    · cases hq
    · have hnp := h.unborn q np hq
      have hnpi : np ≠ i := by
        rintro rfl
        rw [hnp] at hi
        cases hi
      simp only [goto, World.adopt, update_of_ne hnpi]
      exact hnp
  · intro q z hz
    simp only [goto, World.adopt, update_apply] at hz ⊢
    split at hz
    · cases hz
      rw [if_neg hne.symm, orphaned_of_not_exits hst.init]
      exact Nat.zero_le _
    · rename_i hzi
      have hleft := h.left q z hz
      split
      · rename_i hq
        rw [hq, hp] at hleft
        exact Nat.lt_of_le_of_ne hleft (fun heq => hzi (Fin.ext heq.symm))
      · exact hleft

theorem of_forkParent (hf : Forked w) (hx : Exclusive w.core) (hme : w.me c = some p)
    {np : Slot} (hp : w.code p = .forkParent np) :
    Related ((w.adopt np (some p)).goto p (.forkRun np)) := by
  have hmaking : making (w.code p) = some np := by rw [hp]; rfl
  refine ⟨?_, ?_, ?_, ?_⟩
  · intro z q hz
    simp only [goto, World.adopt, update_apply] at hz
    split at hz
    · cases hz
      change Signals.alive (sig w.core p).state = true
      rw [me_running hx hme]
      rfl
    · exact h.alive z q hz
  · intro z (hz : (sig w.core z).state = .unused)
    have hne : z ≠ np := by
      rintro rfl
      rw [hf.used p z hmaking] at hz
      cases hz
    simp only [goto, World.adopt, update_of_ne hne]
    exact h.unused z hz
  · intro q m hq
    simp only [goto, World.adopt, update_apply] at hq
    split at hq
    · cases hq
    · have hne : m ≠ np := by
        rintro rfl
        exact ‹q ≠ p› (hf.unique q p m (making_unborn hq) hmaking)
      simp only [goto, World.adopt, update_of_ne hne]
      exact h.unborn q m hq
  · intro q z hz
    simp only [goto, World.adopt, update_apply] at hz ⊢
    split
    · exact Nat.zero_le _
    · split at hz
      · cases hz
        contradiction
      · exact h.left q z hz

theorem acts (hst : Staged w) (hf : Forked w) (hx : Exclusive w.core) (ha : Acts w e v) : Related v := by
  cases ha with
  | core ha hk => exact h.of_background hx (allows_background ha) hk
  | setRes | pipe | consoleintr => exact h.of_same rfl rfl rfl
  | @allocproc c p np k hme hp hk =>
    obtain ⟨hunused, -, -, hsig⟩ := allocproc_effect hk
    refine (h.of_core (k := k) (fun q hq => .inl ?_) (fun z hz => ?_)).of_goto ?_ (fun z _ => Nat.zero_le _)
    · have hne : q ≠ np := by
        rintro rfl
        rw [hunused] at hq
        cases hq
      rw [hsig, if_neg hne]
      exact hq
    · rw [hsig] at hz
      split at hz
      · cases hz
      · exact hz
    · intro m hm
      cases hm
      exact h.unused np hunused
  | @forkFail c p np k hpc hpr hk =>
    obtain ⟨-, hsig⟩ := forkFail_effect hk hpc
    have hused : (sig w.core np).state = .used := (hx.creating c np hpc).1
    exact (h.of_freeproc (by rw [hused]; rfl) hsig).of_plain rfl rfl
  | @forkDone c p np k hpc hpr hk =>
    have hcopy := hf.copying c p np hpc hpr
    have hcore := (h.of_background hx rfl hk).of_same rfl rfl rfl (v := { w with core := k }.setRes np (w.res p))
    refine hcore.of_goto ?_ (fun z _ => Nat.zero_le _)
    intro m hm
    cases hm
    exact h.unborn p np (by rw [hcopy]; rfl)
  | forkParent hme hp hl => exact h.of_forkParent hf hx hme hp
  | @forkRun c p np o k hme hp hk =>
    obtain ⟨hused, hsig⟩ := forkRun_effect hk
    refine (h.of_core (k := k) (fun q hq => .inl ?_) (fun z hz => ?_)).of_plain rfl rfl
    · rw [hsig]
      split
      · rfl
      · exact hq
    · rw [hsig] at hz
      split at hz
      · cases hz
      · exact hz
  | exit hme hp hi => exact h.of_plain rfl rfl
  | @exitFile c p status fd o hme hp =>
    exact (h.of_same rfl rfl rfl : Related (w.setRes p _)).of_plain (making_afterFile status fd)
      (orphaned_afterFile status fd)
  | @exitCwd c p status o hme hp => exact (h.of_same rfl rfl rfl : Related (w.setRes p _)).of_plain rfl rfl
  | @exitLock c p status o hme hp hl =>
    exact (h.of_same rfl rfl rfl : Related (w.setLock .wait (some p))).of_plain rfl rfl
  | adopt hme hp hi => exact h.of_adopt hst hp hi
  | @pass c p status i o hme hp hi =>
    refine h.of_goto ?_ ?_
    · intro np hnp
      rw [unborn_making (making_afterReparent status i)] at hnp
      cases hnp
    · intro z hz
      have hleft := h.left p z hz
      have hne : z ≠ i := by
        rintro rfl
        exact hi hz
      rw [hp] at hleft
      rw [orphaned_afterReparent]
      exact Nat.lt_of_le_of_ne hleft (fun heq => hne (Fin.ext heq.symm))
  | @wakeInit c p status i o k hme hp hk =>
    refine Related.of_exit (h.of_background hx rfl hk) ?_ (making_afterReparent status i)
    rw [orphaned_afterReparent, hp]
    rfl
  | wakeParent hme hp hk =>
    exact Related.of_exit (h.of_background hx rfl hk) (by rw [hp]; rfl) rfl
  | @zombie c p status o k hme hp hk =>
    have hsig := kexit_effect hk (me_eq_some hme).2
    refine Related.of_exit (h.of_core (k := k) (fun q hq => ?_) (fun z hz => ?_)) (by rw [hp]; rfl) rfl
    · by_cases hqp : q = p
      · refine .inr fun z hz => ?_
        have hleft := h.left q z hz
        have := z.isLt
        rw [hqp, hp] at hleft
        simp only [orphaned] at hleft
        omega
      · rw [hsig, if_neg hqp]
        exact .inl hq
    · rw [hsig] at hz
      split at hz
      · cases hz
      · exact hz
  | @unlockWait c p hpc hpr hp =>
    exact (h.of_same rfl rfl rfl : Related (w.setLock .wait none)).of_exit
      (by rw [show (w.setLock .wait none).code p = _ from hp]; rfl) rfl
  | call hme hp | scanFault hme hp hi hs ha | killed hme hp hk =>
    exact h.of_plain rfl rfl
  | @enter c p x o hme hp hl | @reacquire c p x o hme hp hl =>
    exact (h.of_same rfl rfl rfl : Related (w.setLock x.lk (some p))).of_plain (making_head _)
      (orphaned_of_not_exits (head_place _).2)
  | scanOther hme hp hi | scanAlive hme hp hi hs =>
    exact h.of_plain (making_afterScan _ _ _) (orphaned_of_not_exits (afterScan_place _ _ _).2)
  | @reap c p addr i havekids o k hme hp hi hs ho hk =>
    have hs : (sig w.core i).state = .zombie := hs
    have hfree := h.of_freeproc (by rw [hs]; rfl) (kwait_effect hk)
    exact Related.of_plain (hfree.of_same rfl rfl rfl) rfl rfl
  | @willing c p x o hme hp hk =>
    exact h.of_plain (making_willing x) (orphaned_of_not_exits (willing_place x).2)
  | full hme hp hk | post hme hp hk =>
    exact (h.of_background hx rfl hk).of_plain rfl rfl
  | doze hme hp hk =>
    exact Related.of_plain ((h.of_background hx rfl hk).of_same rfl rfl rfl) rfl rfl
  | @loop c p o y pipe cons hme hp hy hroom hret =>
    exact (h.of_same rfl rfl rfl : Related { w with pipe := pipe, cons := cons }).of_plain (making_inLoop hy)
      (orphaned_of_not_exits (inLoop_place hy).2)
  | ret hme hp => exact Related.of_plain (h.of_same rfl rfl rfl) rfl rfl

end Related

theorem run_related (r : Lifecycle.Run n) (k : Nat) : Related (r.state k) :=
  run_always r (boot_related n)
    (fun k _ _ h ha => h.acts (run_staged r k) (run_forked r k) (core_exclusive r k) ha) k

end AdaptiveXv6.Family
