import Mathlib.Algebra.BigOperators.Ring.Finset
import Mathlib.Data.Fintype.BigOperators
import AdaptiveXv6.DescriptorCalls

namespace AdaptiveXv6.Descriptors

open Runs Tallies OpenFiles FileReferences FileSteps DescriptorCalls Function

variable {s t : State} {p np : Fin NPROC} {f : Fin NFILE}

theorem proper_pair (np : Fin NPROC) (h : Inv s) (hp : s.status p = .alive) (hmine : ∀ q, s.status np = .used q → q = p)
    (hsame : ∀ q, q ≠ p → q ≠ np →
      t.task q = s.task q ∧ t.ofile q = s.ofile q ∧ t.cwd q = s.cwd q ∧ t.status q = s.status q)
    (hkept : ∀ f, s.ref f = 1 → s.kind f = .none → share s p f = 0 → t.ref f = 1 ∧ t.kind f = .none)
    (hpp : Proper t p) (hnp : Proper t np) (q : Fin NPROC) : Proper t q := by
  by_cases hq : q = p
  · exact hq ▸ hpp
  by_cases hqn : q = np
  · exact hqn ▸ hnp
  obtain ⟨h₁, h₂, h₃, h₄⟩ := hsame q hq hqn
  refine (h.proper q).frame h₁ h₂ h₃ h₄ ?_ fun f hr hk hs => hkept f hr hk (alone h (Ne.symm hq) hr hs)
  intro c hc
  have hcp : c ≠ p := by
    rintro rfl
    rw [hp] at hc
    cases hc
  have hcn : c ≠ np := by
    rintro rfl
    exact hq (hmine q hc)
  exact ⟨(hsame c hcp hcn).2.2.2, (hsame c hcp hcn).2.1⟩

theorem idle_proper (hk : t.task p = .idle)
    (hgone : t.status p = .unused ∨ t.status p = .zombie → ∀ fd, t.ofile p fd = none)
    (hhome : (t.cwd p).isSome ↔ t.status p = .alive) : Proper t p := by
  refine ⟨fun _ => hk, hgone, hhome, ?_, ?_⟩
  · rw [hk]
    exact fun f hf => absurd hf List.not_mem_nil
  · rw [hk]
    trivial

theorem used_proper (hk : t.task np = .idle) (hs : t.status np = .used p) (hc : t.cwd np = none) : Proper t np := by
  refine idle_proper hk ?_ ?_
  · rw [hs]
    rintro (h | h)
    · cases h
    · cases h
  · rw [hs, hc]
    simp

theorem alive_proper (h : Proper s p) (hp : s.status p = .alive) (hstatus : t.status p = .alive)
    (hcwd : t.cwd p = s.cwd p) (hfresh : fresh (t.task p) = []) (hdoing : Doing t p (t.task p)) : Proper t p := by
  refine ⟨fun hn => absurd hstatus hn, ?_, ?_, ?_, hdoing⟩
  · rw [hstatus]
    rintro (h | h)
    · cases h
    · cases h
  · rw [hcwd, h.home, hstatus, hp]
  · rw [hfresh]
    exact fun f hf => absurd hf List.not_mem_nil

theorem cwd_none (h : Inv s) (hs : s.status p ≠ .alive) : s.cwd p = none :=
  Option.not_isSome_iff_eq_none.mp fun hc => hs ((h.proper p).home.mp hc)

theorem fork_child (h : Inv s) (hp : s.status p = .alive) {i : Nat} (hk : s.task p = .fork np i) :
    np ≠ p ∧ s.status np = .used p ∧ s.task np = .idle ∧ s.cwd np = none := by
  obtain ⟨hused, -⟩ := doing_of h hk
  refine ⟨?_, hused, (h.proper np).quiet (by rw [hused]; simp), cwd_none h (by rw [hused]; simp)⟩
  rintro rfl
  rw [hp] at hused
  cases hused

theorem inv_pair (np : Fin NPROC) (h : Inv s) (hp : s.status p = .alive)
    (hmine : ∀ q, s.status np = .used q → q = p) (hne : np ≠ p)
    (hsame : ∀ q, q ≠ p → q ≠ np →
      t.task q = s.task q ∧ t.ofile q = s.ofile q ∧ t.cwd q = s.cwd q ∧ t.status q = s.status q)
    (hkind : t.kind = s.kind) (hintact : Intact t) (hshare : ∀ a, share t p a = share s p a)
    (howns : ∀ r, owns t p r = owns s p r) (hrefs : ∀ a, t.ref a + share s np a = s.ref a + share t np a)
    (hres : ∀ r, recorded t r + owns s np r = recorded s r + owns t np r)
    (hkept : ∀ f, s.ref f = 1 → share s p f = 0 → t.ref f = 1) (hempty : ∀ f, t.ref f = 0 → s.ref f = 0)
    (hpp : Proper t p) (hnp : Proper t np) : Inv t := by
  refine ⟨hintact, fun a => ?_, fun a ha => ?_, fun r => ?_, ?_⟩
  · have hsum := sum_change (p := np) (f := fun q => share s q a) (g := fun q => share t q a) (by
      intro q hq
      by_cases hqp : q = p
      · subst hqp
        exact hshare a
      · obtain ⟨h₁, h₂, -, -⟩ := hsame q hqp hq
        simp only [share, h₁, h₂])
    have := h.refs a
    have := hrefs a
    omega
  · rw [hkind]
    exact h.empty a (hempty a ha)
  · have hsum := sum_change (p := np) (f := fun q => owns s q r) (g := fun q => owns t q r) (by
      intro q hq
      by_cases hqp : q = p
      · subst hqp
        exact howns r
      · obtain ⟨h₁, -, h₃, -⟩ := hsame q hqp hq
        simp only [owns, h₁, h₃])
    have := h.res r
    have := hres r
    rw [tabled_congr hkind]
    omega
  · refine proper_pair np h hp hmine hsame (fun f hr hk hz => ⟨hkept f hr hz, ?_⟩) hpp hnp
    rw [hkind, hk]

section Turns

variable (h : Inv s) (hp : s.status p = .alive)

include h hp

theorem inv_startFork (hk : s.task p = .idle) (hnp : s.status np = .unused) :
    Inv ((s.setStatus np (.used p)).setTask p (.fork np 0)) := by
  have hne : np ≠ p := by
    rintro rfl
    rw [hp] at hnp
    cases hnp
  have hidle : s.task np = .idle := (h.proper np).quiet (by rw [hnp]; decide)
  have hnone : s.cwd np = none := cwd_none h (by rw [hnp]; decide)
  refine inv_pair np h hp ?_ hne ?_ rfl ⟨h.pages, h.pipes, h.ok⟩ ?_ ?_ ?_ ?_ (fun _ hr _ => hr) (fun _ => id) ?_ ?_
  · intro q hq
    rw [hnp] at hq
    cases hq
  · intro q hq hqn
    exact ⟨update_of_ne hq .., rfl, rfl, update_of_ne hqn ..⟩
  · intro a
    simp only [share, State.setTask, State.setStatus, update_self, hk]
    rfl
  · intro r
    simp only [owns, State.setTask, State.setStatus, update_self, hk]
    rfl
  · intro a
    simp only [share, State.setTask, State.setStatus, update_of_ne hne]
  · intro r
    have hrec : recorded ((s.setStatus np (.used p)).setTask p (.fork np 0)) r = recorded s r := by
      cases r <;> rfl
    rw [hrec]
    simp only [owns, State.setTask, State.setStatus, update_of_ne hne]
  · refine alive_proper (h.proper p) hp ((update_of_ne (Ne.symm hne) ..).trans hp) rfl ?_ ?_
    · simp [State.setTask, fresh]
    · simp only [State.setTask, update_self]
      exact ⟨update_self .., fun fd _ => (h.proper np).gone (.inl hnp) fd⟩
  · exact used_proper ((update_of_ne hne ..).trans hidle) (update_self ..) hnone

theorem inv_forkCopy {i : Nat} (hi : i < NOFILE) (hk : s.task p = .fork np i) (hf : s.ofile p ⟨i, hi⟩ = some f) :
    Inv (((s.filedup f).setFd np ⟨i, hi⟩ (some f)).setTask p (.fork np (i + 1))) := by
  obtain ⟨-, hfree⟩ := doing_of h hk
  obtain ⟨hne, hused, hidle, hnone⟩ := fork_child h hp hk
  have hmine : 0 < share s p f := by
    rw [share, hk]
    exact Nat.add_pos_left (slots_pos hf (by simp [stale])) _
  have hpos : 0 < s.ref f := hmine.trans_le (share_le h p f)
  have hdup : s.filedup f = { s with ref := update s.ref f (s.ref f + 1) } := by
    rw [State.filedup, if_neg (by omega)]
  rw [hdup]
  have href := update_one_add s.ref f rfl
  refine inv_pair np h hp ?_ hne ?_ rfl ⟨h.pages, h.pipes, h.ok⟩ ?_ ?_ ?_ ?_ ?_ ?_ ?_ ?_
  · intro q hq
    rw [hused] at hq
    cases hq
    rfl
  · intro q hq hqn
    exact ⟨update_of_ne hq .., update_of_ne hqn .., rfl, rfl⟩
  · intro a
    simp only [share, held, State.setTask, State.setFd, update_self, update_of_ne (Ne.symm hne), hk, stale, carries]
  · intro r
    simp only [owns, State.setTask, State.setFd, update_self, hk, taskHolds]
  · intro a
    simp only [share, held, State.setTask, State.setFd, update_self, update_of_ne hne, hidle, stale, carries,
      List.count_nil, slots_free (hfree ⟨i, hi⟩ (Nat.le_refl i)), slot_some, href]
    omega
  · intro r
    simp only [owns, State.setTask, State.setFd, update_of_ne hne]
    cases r <;> rfl
  · intro a hr hz
    have hfa : f ≠ a := by
      rintro rfl
      omega
    exact (href a).trans (by rw [one, if_neg hfa, hr])
  · intro a ha
    have := href a
    simp only [State.setTask, State.setFd] at ha
    omega
  · refine alive_proper (h.proper p) hp hp rfl ?_ ?_
    · simp [State.setTask, fresh]
    · simp only [State.setTask, State.setFd, update_self]
      refine ⟨hused, fun fd hfd => ?_⟩
      have hfdne : fd ≠ ⟨i, hi⟩ := by
        rintro rfl
        simp at hfd
      simp only [update_self, update_of_ne hfdne]
      exact hfree fd (by omega)
  · exact used_proper ((update_of_ne hne ..).trans hidle) hused hnone

theorem inv_forkDone {i : Nat} (hk : s.task p = .fork np i) (ip : Nat) :
    Inv ((((s.idup ip).setCwd np (some ip)).setStatus np .alive).setTask p .idle) := by
  obtain ⟨hne, hused, hidle, hnone⟩ := fork_child h hp hk
  refine inv_pair np h hp ?_ hne ?_ rfl ⟨h.pages, h.pipes, h.ok⟩ ?_ ?_ ?_ ?_ (fun _ hr _ => hr) (fun _ => id) ?_ ?_
  · intro q hq
    rw [hused] at hq
    cases hq
    rfl
  · intro q hq hqn
    exact ⟨update_of_ne hq .., rfl, update_of_ne hqn .., update_of_ne hqn ..⟩
  · intro a
    simp only [share, held, State.setTask, State.setStatus, State.setCwd, State.idup, update_self, hk, stale, carries,
      List.count_nil]
  · intro r
    simp only [owns, State.setTask, State.setStatus, State.setCwd, State.idup, update_self, update_of_ne (Ne.symm hne),
      hk, taskHolds, kindHolds, inodeHolds]
  · intro a
    simp only [share, State.setTask, State.setStatus, State.setCwd, State.idup, update_of_ne hne]
  · intro r
    have hrec : recorded ((((s.idup ip).setCwd np (some ip)).setStatus np .alive).setTask p .idle) r =
        recorded s r + one (.inode ip) r := by
      rw [← recorded_idup]
      cases r <;> rfl
    rw [hrec]
    simp only [owns, State.setTask, State.setStatus, State.setCwd, State.idup, update_self, update_of_ne hne, hnone,
      inodeHolds]
    omega
  · refine alive_proper (h.proper p) hp ((update_of_ne (Ne.symm hne) ..).trans hp)
      (update_of_ne (Ne.symm hne) ..) ?_ ?_
    · simp [State.setTask, fresh]
    · simp only [State.setTask, update_self]
      trivial
  · refine idle_proper ((update_of_ne hne ..).trans hidle) ?_ ?_
    · simp [State.setTask, State.setStatus]
    · simp [State.setTask, State.setStatus, State.setCwd]

theorem inv_goFork {i : Nat} (hk : s.task p = .fork np i) : Inv (s.goFork p np i) := by
  obtain ⟨hused, hfree⟩ := doing_of h hk
  unfold State.goFork
  split
  · rename_i hi
    split
    · exact move h hp hk (fun _ _ => rfl) (fun a => rfl) (fun r => rfl) (List.nil_subset _)
        ⟨hused, fun fd hfd => hfree fd (by omega)⟩
    · rename_i f hf
      exact inv_forkCopy h hp hi hk hf
  · split
    · rename_i hnone
      have := (h.proper p).home.mpr hp
      rw [hnone] at this
      cases this
    · exact inv_forkDone h hp hk _

theorem inv_exitDone {fd ip : Nat} (hk : s.task p = .exit fd none) (hfd : ¬fd < NOFILE) (hcwd : s.cwd p = some ip) :
    Inv ((((s.iput ip).setCwd p none).setStatus p .zombie).setTask p .idle) := by
  obtain ⟨hslots, -⟩ := doing_of h hk
  have hpos : 0 < s.iref ip := by
    have := owns_le h p (.inode ip)
    rw [owns, hcwd, inodeHolds, one, if_pos rfl, recorded] at this
    omega
  have hu : Put s (.inode ip) (s.iput ip) := iput_spec h hpos fun _ => rfl
  have htask : ((((s.iput ip).setCwd p none).setStatus p .zombie).setTask p .idle).task p = .idle :=
    update_self ..
  have hofile : ((((s.iput ip).setCwd p none).setStatus p .zombie).setTask p .idle).ofile = s.ofile := hu.ofile
  refine FileReferences.Inv.change h (fun q hq => absurd (hp.symm.trans hq) (by simp)) ?_ ?_ ?_ ?_ ?_
    ⟨hu.pages, hu.pipes, hu.ok⟩ ?_
  · intro q hq
    simp only [State.setTask, State.setStatus, State.setCwd, update_of_ne hq, hu.task, hu.ofile, hu.cwd,
      hu.status, and_self]
  · intro a
    rw [share, share, hk, htask, hofile]
    simp only [held, stale, carries, List.count_nil, State.setTask, State.setStatus, State.setCwd, hu.ref]
  · intro r
    have hrec := hu.recorded r
    have h₁ : recorded ((((s.iput ip).setCwd p none).setStatus p .zombie).setTask p .idle) r =
        recorded (s.iput ip) r := by
      cases r <;> rfl
    have h₂ : tabled ((((s.iput ip).setCwd p none).setStatus p .zombie).setTask p .idle) r = tabled s r :=
      tabled_congr hu.kind r
    have h₃ : owns ((((s.iput ip).setCwd p none).setStatus p .zombie).setTask p .idle) p r = 0 := by
      simp only [owns, State.setTask, State.setStatus, State.setCwd, update_self, taskHolds, kindHolds, inodeHolds,
        Nat.add_zero]
    have h₄ : owns s p r = kindHolds (.inode ip) r := by
      simp only [owns, hk, hcwd, taskHolds, kindHolds, inodeHolds, Nat.zero_add]
    rw [h₁, h₂, h₃, h₄]
    omega
  · intro a hr hn _
    exact ⟨(congrFun hu.ref a).trans hr, (congrFun hu.kind a).trans hn⟩
  · intro a ha
    exact (congrFun hu.kind a).trans (h.empty a ((congrFun hu.ref a).symm.trans ha))
  · refine idle_proper htask (fun _ e => ?_) ?_
    · rw [hofile]
      exact hslots e (by omega)
    · simp [State.setTask, State.setStatus, State.setCwd]

theorem inv_goExit {fd : Nat} {d : Option Kind} (hk : s.task p = .exit fd d) : Inv (s.goExit p fd d) := by
  obtain ⟨hslots, hlast⟩ := doing_of h hk
  cases d with
  | some d =>
    obtain ⟨hfd, -⟩ := hlast (by simp)
    rw [State.goExit, dif_pos hfd]
    refine inv_put h hp hk (fun q hq => ?_) (fun a => ?_) (fun r => ?_) rfl ⟨fun e he => ?_, fun hd => absurd rfl hd⟩
    · rw [update_of_ne hq, put_ofile]
    · have hset := slots_split (update (s.ofile p) ⟨fd, hfd⟩ none) ⟨fd, hfd⟩ a
      rw [slots_update, update_self] at hset
      rw [update_self, put_ofile]
      simpa [held, stale, carries, slot] using hset
    · simp only [taskHolds, Nat.zero_add]
    · simp only [State.setTask, update_self, put_ofile]
      by_cases hefd : e = ⟨fd, hfd⟩
      · rw [hefd, update_self]
      · rw [update_of_ne hefd]
        refine hslots e ?_
        have : e.val ≠ fd := fun hv => hefd (Fin.ext hv)
        omega
  | none =>
    rw [State.goExit]
    split
    · rename_i hfd
      split
      · rename_i hnone
        refine move h hp hk (fun _ _ => rfl) (fun a => rfl) (fun r => rfl) (List.nil_subset _)
          ⟨fun e he => ?_, fun hd => absurd rfl hd⟩
        by_cases hefd : e = ⟨fd, hfd⟩
        · rw [hefd]
          exact hnone
        · refine hslots e ?_
          have : e.val ≠ fd := fun hv => hefd (Fin.ext hv)
          omega
      · rename_i f hf
        have hmine : 0 < held (s.ofile p) (.exit fd none) f :=
          Nat.add_pos_left (slots_pos hf (by simp [stale])) _
        have hu := unref_spec h ((hk ▸ hmine).trans_le (share_le h p f))
        refine inv_unref h hp hk hmine (fun a => ?_) (fun r => ?_) rfl ?_
        · have hset := slots_split (s.ofile p) ⟨fd, hfd⟩ a
          rw [hf, slot_some] at hset
          simp only [held, stale, carries, Nat.add_zero]
          exact hset.symm
        · simp only [taskHolds, Nat.zero_add]
        · refine ⟨fun e he => ?_, fun _ => ⟨hfd, ?_⟩⟩
          · simp only [State.setTask, hu.ofile]
            exact hslots e he
          · simp only [State.setTask, hu.ofile, hf]
            simp
    · rename_i hfd
      split
      · rename_i hnone
        have := (h.proper p).home.mpr hp
        rw [hnone] at this
        cases this
      · rename_i ip hcwd
        exact inv_exitDone h hp hk hfd hcwd

theorem inv_start (hk : s.task p = .idle) {c : Call} (hs : s.start p c = some t) : Inv t := by
  have hidup : ∀ (ip : Nat) (k : Task), (∀ a, held (s.ofile p) k a = held (s.ofile p) .idle a) →
      (∀ r, taskHolds k r = one (.inode ip) r) → fresh k = [] → Doing ((s.idup ip).setTask p k) p k →
      Inv ((s.idup ip).setTask p k) := by
    intro ip k hheld hh hn hd
    refine inv_idup h hp hk hheld (fun r => ?_) hn hd
    rw [hh]
    simp only [taskHolds, kindHolds, inodeHolds, Nat.zero_add]
  cases c with
  | «open» ip =>
    cases ip with
    | none =>
      cases hs
      exact h
    | some ip =>
      cases hs
      exact hidup ip _ (fun _ => rfl) (fun _ => rfl) rfl trivial
  | exec ip =>
    cases ip with
    | none =>
      cases hs
      exact h
    | some ip =>
      cases hs
      exact hidup ip _ (fun _ => rfl) (fun r => by simp [taskHolds, kindHolds, inodeHolds]) rfl trivial
  | dup fd =>
    simp only [State.start] at hs
    split at hs
    · cases hs
      exact h
    · rename_i f hf
      split at hs
      · cases hs
        exact h
      · rename_i fd' hfd
        cases hs
        have hfree := ofile_of_fdalloc hfd
        have hne : fd ≠ fd' := by
          rintro rfl
          rw [hf] at hfree
          cases hfree
        refine move h hp hk (fun q hq => update_of_ne hq ..) (fun a => ?_) (fun r => rfl) (List.nil_subset _) ?_
        · simp only [held, stale, carries, List.count_nil, update_self]
          rw [slots_update, slots_split (s.ofile p) fd' a, hfree]
          simp [slot]
        · simp only [Doing, State.setTask, update_self]
          exact ⟨trivial, fd, hne, by rw [update_of_ne hne, hf]⟩
  | close fd =>
    simp only [State.start] at hs
    split at hs
    · cases hs
      exact h
    · rename_i f hf
      cases hs
      refine move h hp hk (fun q hq => update_of_ne hq ..) (fun a => ?_) (fun r => rfl) (List.nil_subset _) trivial
      have hset := slots_clear hf a
      simp only [held, stale, carries, one, update_self, List.count_cons, List.count_nil, beq_iff_eq] at hset ⊢
      omega
  | pipe =>
    cases hs
    exact move h hp hk (fun _ _ => rfl) (fun a => rfl) (fun r => rfl) (List.nil_subset _) trivial
  | fork np =>
    cases np with
    | none =>
      cases hs
      exact h
    | some np =>
      simp only [State.start] at hs
      split at hs
      · rename_i hnp
        cases hs
        exact inv_startFork h hp hk hnp
      · cases hs
  | exit =>
    simp only [State.start] at hs
    split at hs
    · cases hs
    · cases hs
      exact move h hp hk (fun _ _ => rfl) (fun a => rfl) (fun r => rfl) (List.nil_subset _)
        ⟨fun e he => absurd he (Nat.not_lt_zero _), fun hd => absurd rfl hd⟩

end Turns

theorem inv_wait (h : Inv s) (hp : s.status p = .zombie) : Inv (s.setStatus p .unused) := by
  have hstatus : (s.setStatus p .unused).status p = .unused := update_self ..
  have hidle : s.task p = .idle := (h.proper p).quiet (by rw [hp]; decide)
  refine FileReferences.Inv.change h (fun q hq => absurd (hp.symm.trans hq) (by simp)) ?_ (fun a => rfl) ?_
    (fun f hr hn _ => ⟨hr, hn⟩) h.empty ⟨h.pages, h.pipes, h.ok⟩ ?_
  · intro q hq
    exact ⟨rfl, rfl, rfl, update_of_ne hq ..⟩
  · intro r
    have h₁ : recorded (s.setStatus p .unused) r = recorded s r := by
      cases r <;> rfl
    rw [h₁]
    rfl
  · refine idle_proper hidle (fun _ => (h.proper p).gone (.inr hp)) ?_
    rw [hstatus, show (s.setStatus p .unused).cwd p = s.cwd p from rfl, cwd_none h (by rw [hp]; decide)]
    simp

theorem inv_go (h : Inv s) {c : Choice} (hs : s.go p c = some t) : Inv t := by
  have hp : (∀ l d ip, s.task p ≠ .closing l d ip) → s.status p = .alive := fun hn => alive_of_task h (hn _ _ _)
  unfold State.go at hs
  cases hk : s.task p with
  | closing l d ip =>
    rw [hk] at hs
    exact inv_goClosing h hk hs
  | openInode ip =>
    rw [hk] at hs hp
    cases hs
    exact inv_goOpen h (hp (by simp)) hk c
  | openFile ip f =>
    rw [hk] at hs hp
    cases hs
    exact inv_goOpenFile h (hp (by simp)) hk
  | openFd ip f fd =>
    rw [hk] at hs hp
    cases hs
    exact inv_goOpenFd h (hp (by simp)) hk c
  | pipealloc =>
    rw [hk] at hs hp
    cases hs
    exact inv_goPipealloc h (hp (by simp)) hk
  | pipeFile rf =>
    rw [hk] at hs hp
    cases hs
    exact inv_goPipeFile h (hp (by simp)) hk
  | pipeFiles rf wf =>
    rw [hk] at hs hp
    exact inv_goPipeFiles h (hp (by simp)) hk hs
  | pipeMade rf wf =>
    rw [hk] at hs hp
    cases hs
    exact inv_goPipeMade h (hp (by simp)) hk
  | pipeFd rf wf fd₀ =>
    rw [hk] at hs hp
    cases hs
    exact inv_goPipeFd h (hp (by simp)) hk
  | pipeFds rf wf fd₀ fd₁ =>
    rw [hk] at hs hp
    cases hs
    exact inv_goPipeFds h (hp (by simp)) hk c
  | dup f fd =>
    rw [hk] at hs hp
    cases hs
    exact inv_goDup h (hp (by simp)) hk
  | fork np i =>
    rw [hk] at hs hp
    cases hs
    exact inv_goFork h (hp (by simp)) hk
  | exit fd d =>
    rw [hk] at hs hp
    cases hs
    exact inv_goExit h (hp (by simp)) hk

theorem inv_step {e : Event} (h : Inv s) (hs : s.step e = some t) : Inv t := by
  cases e with
  | call p c =>
    simp only [State.step] at hs
    split at hs
    · rename_i hp
      exact inv_start h hp.1 hp.2 hs
    · cases hs
  | go p c => exact inv_go h hs
  | wait p =>
    simp only [State.step] at hs
    split at hs
    · rename_i hp
      cases hs
      exact inv_wait h hp
    · cases hs

theorem inv_init : Inv State.init where
  refs f := by
    simp [State.init, share, held, slots, carries]
  empty _ _ := rfl
  res r := by
    have howns : ∑ p, owns State.init p r = one (.inode ROOTINO) r := by
      rw [Finset.sum_eq_single 0]
      · simp [owns, State.init, taskHolds, kindHolds, inodeHolds]
      · intro p _ hp
        simp [owns, State.init, taskHolds, kindHolds, inodeHolds, hp]
      · exact fun hn => absurd (Finset.mem_univ 0) hn
    have htab : tabled State.init r = 0 := Finset.sum_eq_zero fun f _ => rfl
    rw [howns, htab]
    cases r with
    | inode ip => simp [recorded, State.init, one, eq_comm]
    | tip pi w => simp [recorded, State.init, one, isOpen]
  pages _ := rfl
  pipes _ _ hx := by cases hx
  proper p := by
    refine ⟨fun _ => rfl, fun _ _ => rfl, ?_, fun f hf => absurd hf List.not_mem_nil, trivial⟩
    simp [State.init]
  ok := rfl

def inodeOf : Kind → Option Nat
  | .inode ip => some ip
  | .device ip _ => some ip
  | _ => none

section Quiet

variable (h : Inv s) (hidle : ∀ p, s.task p = .idle)
include h hidle

theorem ref_eq (f : Fin NFILE) :
    s.ref f = (Finset.univ.filter fun x : Fin NPROC × Fin NOFILE => s.ofile x.1 x.2 = some f).card := by
  rw [h.refs, Finset.card_filter, Fintype.sum_prod_type]
  refine Finset.sum_congr rfl fun p _ => ?_
  rw [share, hidle p]
  simp only [held, slots, stale, carries, List.count_nil, Nat.add_zero, ne_eq, reduceCtorEq, not_false_eq_true, and_true]

theorem ref_pos_iff (f : Fin NFILE) : 0 < s.ref f ↔ ∃ p fd, s.ofile p fd = some f := by
  simp only [h.refs, Finset.sum_pos_iff, Finset.mem_univ, true_and]
  refine exists_congr fun p => ?_
  rw [share, hidle p]
  simp only [held, stale, carries, List.count_nil, Nat.add_zero, slots, Finset.sum_pos_iff, Finset.mem_univ, true_and]
  refine exists_congr fun fd => ?_
  by_cases hf : s.ofile p fd = some f
  · simp [hf]
  · simp [hf]

theorem iref_eq (ip : Nat) : s.iref ip = (Finset.univ.filter fun f => 0 < s.ref f ∧ inodeOf (s.kind f) = some ip).card +
    (Finset.univ.filter fun p => s.cwd p = some ip).card := by
  refine (h.res (.inode ip)).trans ?_
  rw [Finset.card_filter, Finset.card_filter]
  refine congrArg₂ (· + ·) (Finset.sum_congr rfl fun f _ => ?_) (Finset.sum_congr rfl fun p _ => ?_)
  · have hempty := h.empty f
    cases hk : s.kind f with
    | none => simp [kindHolds, inodeOf]
    | pipe pi w => simp [kindHolds, inodeOf, one]
    | inode i | device i n =>
      rw [hk] at hempty
      have hpos : 0 < s.ref f := by
        refine Nat.pos_of_ne_zero fun hz => ?_
        cases hempty hz
      simp [kindHolds, inodeOf, one, hpos]
  · rw [owns, hidle]
    cases s.cwd p with
    | none => simp [taskHolds, kindHolds, inodeHolds]
    | some i => simp [taskHolds, kindHolds, inodeHolds, one]

theorem isOpen_iff (pi : Nat) (w : Bool) :
    isOpen (s.pipe pi) w = true ↔ ∃ p fd f, s.ofile p fd = some f ∧ s.kind f = .pipe pi w := by
  have hres : (isOpen (s.pipe pi) w).toNat = tabled s (.tip pi w) := by
    refine (h.res (.tip pi w)).trans ?_
    rw [Finset.sum_eq_zero, Nat.add_zero]
    intro p _
    rw [owns, hidle]
    cases s.cwd p with
    | none => simp [taskHolds, kindHolds, inodeHolds]
    | some i => simp [taskHolds, kindHolds, inodeHolds, one]
  have hholds : ∀ f, 0 < kindHolds (s.kind f) (.tip pi w) ↔ s.kind f = .pipe pi w := by
    intro f
    cases s.kind f with
    | none => simp [kindHolds]
    | pipe pj w' =>
      simp only [kindHolds, one, Res.tip.injEq, Kind.pipe.injEq]
      by_cases hc : pj = pi ∧ w' = w
      · simp [hc]
      · simp [hc]
    | inode i | device i n => simp [kindHolds, one]
  have hopen : isOpen (s.pipe pi) w = true ↔ ∃ f, s.kind f = .pipe pi w := by
    have hpos : 0 < tabled s (.tip pi w) ↔ ∃ f, s.kind f = .pipe pi w := by
      simp only [tabled, Finset.sum_pos_iff, Finset.mem_univ, true_and, hholds]
    rw [← hpos, ← hres]
    cases isOpen (s.pipe pi) w with
    | true => simp
    | false => simp
  rw [hopen]
  constructor
  · rintro ⟨f, hf⟩
    have hpos : 0 < s.ref f := by
      refine Nat.pos_of_ne_zero fun hz => ?_
      rw [h.empty f hz] at hf
      cases hf
    obtain ⟨p, fd, hfd⟩ := (ref_pos_iff h hidle f).mp hpos
    exact ⟨p, fd, f, hfd, hf⟩
  · rintro ⟨p, fd, f, -, hf⟩
    exact ⟨f, hf⟩

theorem pipe_isSome_iff (pi : Nat) :
    (s.pipe pi).isSome ↔ ∃ p fd f w, s.ofile p fd = some f ∧ s.kind f = .pipe pi w := by
  constructor
  · intro hsome
    obtain ⟨x, hx⟩ := Option.isSome_iff_exists.mp hsome
    rcases h.pipes pi x hx with hr | hw
    · obtain ⟨p, fd, f, hf⟩ := (isOpen_iff h hidle pi false).mp (by rw [hx]; exact hr)
      exact ⟨p, fd, f, false, hf⟩
    · obtain ⟨p, fd, f, hf⟩ := (isOpen_iff h hidle pi true).mp (by rw [hx]; exact hw)
      exact ⟨p, fd, f, true, hf⟩
  · rintro ⟨p, fd, f, w, hf⟩
    have hopen := (isOpen_iff h hidle pi w).mpr ⟨p, fd, f, hf⟩
    cases hx : s.pipe pi with
    | none =>
      rw [hx] at hopen
      cases hopen
    | some x => rfl

end Quiet

/-- With no call in progress, the reference counts of files, inodes and pipes are right, and the page of a pipe
is freed as often as it was allocated. -/
theorem file_references (r : Run State.step State.init) (k : Nat) (hidle : ∀ p, (r.state k).task p = .idle) :
    (∀ f, (r.state k).ref f =
      (Finset.univ.filter fun x : Fin NPROC × Fin NOFILE => (r.state k).ofile x.1 x.2 = some f).card) ∧
    (∀ f, (r.state k).ref f = 0 → ∀ p fd, (r.state k).ofile p fd ≠ some f) ∧
    (∀ ip, (r.state k).iref ip =
      (Finset.univ.filter fun f => 0 < (r.state k).ref f ∧ inodeOf ((r.state k).kind f) = some ip).card +
        (Finset.univ.filter fun p => (r.state k).cwd p = some ip).card) ∧
    (∀ pi w, isOpen ((r.state k).pipe pi) w = true ↔
      ∃ p fd f, (r.state k).ofile p fd = some f ∧ (r.state k).kind f = .pipe pi w) ∧
    (∀ pi, ((r.state k).pipe pi).isSome ↔
      ∃ p fd f w, (r.state k).ofile p fd = some f ∧ (r.state k).kind f = .pipe pi w) ∧
    (∀ pi, (r.state k).made pi = (r.state k).freed pi + ((r.state k).pipe pi).isSome.toNat) ∧
    (r.state k).fault = false := by
  have h : Inv (r.state k) := r.always inv_init (fun _ _ _ hi hs => inv_step hi hs) k
  refine ⟨ref_eq h hidle, ?_, iref_eq h hidle, isOpen_iff h hidle, pipe_isSome_iff h hidle, h.pages, h.ok⟩
  intro f hz p fd hf
  have := (ref_pos_iff h hidle f).mpr ⟨p, fd, hf⟩
  omega

/-- A pipe is made, its read end is doubled, its write end closed, and the process forks. -/
def shared (p np : Fin NPROC) (r w : Fin NOFILE) : List Event :=
  [.call p .pipe, .go p .ok, .go p .ok, .go p (.page 7), .go p .ok, .go p .ok, .go p .ok, .call p (.dup r), .go p .ok,
    .call p (.close w), .go p .ok, .go p .ok, .call p (.fork (some np))] ++ List.replicate 17 (.go p .ok)

theorem file_references_shared : ∃ r : Run State.step State.init, (r.state 30).ref 0 = 4 ∧
    (Finset.univ.filter fun x : Fin NPROC × Fin NOFILE => (r.state 30).ofile x.1 x.2 = some 0).card = 4 ∧
    isOpen ((r.state 30).pipe 7) false = true ∧
    ¬∃ p fd f, (r.state 30).ofile p fd = some f ∧ (r.state 30).kind f = .pipe 7 true := by
  have hexec : (exec State.step State.init (shared 0 1 0 1)).isSome = true := by decide +kernel
  obtain ⟨t, ht⟩ := Option.isSome_iff_exists.mp hexec
  obtain ⟨r, -, hev⟩ := exists_script ht
  have hidle : decide (∀ p, (r.state 30).task p = .idle) = true :=
    script_eq hev (f := fun s => decide (∀ p, s.task p = .idle)) (by decide +kernel)
  have hread : isOpen ((r.state 30).pipe 7) false = true :=
    script_eq hev (f := fun s => isOpen (s.pipe 7) false) (by decide +kernel)
  have hwrite : isOpen ((r.state 30).pipe 7) true = false :=
    script_eq hev (f := fun s => isOpen (s.pipe 7) true) (by decide +kernel)
  have href : (r.state 30).ref 0 = 4 := script_eq hev (f := fun s => s.ref 0) (by decide +kernel)
  obtain ⟨hrefs, -, -, hopen, -⟩ := file_references r 30 (of_decide_eq_true hidle)
  refine ⟨r, href, (hrefs 0).symm.trans href, hread, fun hex => ?_⟩
  rw [← hopen, hwrite] at hex
  cases hex

end AdaptiveXv6.Descriptors
