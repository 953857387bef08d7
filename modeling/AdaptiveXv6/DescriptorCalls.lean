import AdaptiveXv6.FileSteps

namespace AdaptiveXv6.DescriptorCalls

open OpenFiles FileReferences FileSteps Function

variable {s t : State} {p : Fin NPROC} {f : Fin NFILE}

theorem put_ofile (s : State) (d : Kind) : (s.put d).ofile = s.ofile := by
  cases d with
  | none => rfl
  | pipe pi w =>
    simp only [State.put, State.pipeclose]
    split
    · rfl
    · split
      · rfl
      · rfl
  | inode ip | device ip n =>
    simp only [State.put, State.iput]
    split
    · rfl
    · rfl

theorem inv_putTask (h : Inv s) (hp : s.status p = .alive) {d : Kind} {j k : Task} (hj : s.task p = j)
    (hheld : ∀ a, held (s.ofile p) k a = held (s.ofile p) j a)
    (hholds : ∀ r, taskHolds k r + kindHolds d r = taskHolds j r) (hnew : fresh k = [])
    (hdoing : Doing ((s.put d).setTask p k) p k) : Inv ((s.put d).setTask p k) :=
  inv_put h hp hj (fun q _ => congrFun (put_ofile s d) q)
    (fun a => (congrArg (held · k a) (congrFun (put_ofile s d) p)).trans (hheld a)) hholds hnew hdoing

theorem inv_goClosing (h : Inv s) {l : List (Fin NFILE)} {d : Kind} {ip : Option Nat}
    (hk : s.task p = .closing l d ip) (hs : s.goClosing p l d ip = some t) : Inv t := by
  have hp : s.status p = .alive := by
    refine alive_of_task h fun hidle => ?_
    rw [hk] at hidle
    cases hidle
    cases hs
  unfold State.goClosing at hs
  split at hs
  · cases hs
  · cases hs
    rename_i i
    refine inv_putTask (d := .inode i) h hp hk (fun a => rfl) (fun r => ?_) rfl trivial
    simp [taskHolds, kindHolds, inodeHolds]
  · cases hs
    rename_i f l ip
    refine inv_unref h hp hk ?_ ?_ ?_ rfl trivial
    · rw [held, carries, List.count_cons_self]
      omega
    · intro a
      simp only [held, stale, carries, List.count_cons, beq_iff_eq, one, Nat.add_assoc]
    · intro r
      simp only [taskHolds, kindHolds]
      omega
  · cases hs
    refine inv_putTask h hp hk (fun a => rfl) (fun r => ?_) rfl trivial
    simp only [taskHolds, kindHolds]
    omega

section Turns

variable {ip : Nat} {rf wf : Fin NFILE} {fd fd₀ fd₁ : Fin NOFILE} {c : Choice}
variable (h : Inv s) (hp : s.status p = .alive)

include h hp

theorem inv_giveUp {j : Task} (hj : s.task p = j) {l : List (Fin NFILE)} {ip : Option Nat}
    (hheld : ∀ a, slots (s.ofile p) none a + l.count a = held (s.ofile p) j a)
    (hholds : ∀ r, inodeHolds ip r = taskHolds j r) : Inv (s.setTask p (.closing l .none ip)) := by
  refine move h hp hj (fun _ _ => rfl) hheld ?_ (List.nil_subset _) trivial
  intro r
  rw [← hholds]
  exact Nat.zero_add _

theorem inv_goOpen (hk : s.task p = .openInode ip) (c : Choice) : Inv (s.goOpen p ip c) := by
  have hfail : Inv (s.setTask p (.closing [] .none (some ip))) :=
    inv_giveUp h hp hk (fun a => rfl) fun r => rfl
  unfold State.goOpen
  split
  · exact hfail
  · split
    · exact hfail
    · rename_i f hf
      refine inv_take h hp hk hf (fun a => ?_) (fun r => rfl) (List.cons_subset_cons f (List.nil_subset _)) trivial
      simp only [held, stale, carries, Nat.add_zero]

theorem inv_goOpenFile (hk : s.task p = .openFile ip f) : Inv (s.goOpenFile p ip f) := by
  unfold State.goOpenFile
  split
  · refine inv_giveUp h hp hk (fun a => ?_) fun r => rfl
    simp only [held, stale, carries, one, List.count_cons, List.count_nil, beq_iff_eq, Nat.zero_add]
  · rename_i fd hfd
    refine move h hp hk (fun q hq => update_of_ne hq ..) (fun a => ?_) (fun r => rfl) (fun a ha => ha) trivial
    simp only [held, stale, carries, update_self, slots_free (ofile_of_fdalloc hfd), slot_some, Nat.add_zero]

theorem inv_setKind {k : Kind} (hk : s.task p = .openFd ip f fd) (hkind : ∀ r, kindHolds k r = one (.inode ip) r) :
    Inv ((s.setKind f k).setTask p .idle) := by
  obtain ⟨href, hnone, hshare⟩ := (h.proper p).fresh f (by rw [hk]; exact List.mem_singleton_self f)
  rw [share, hk] at hshare
  refine act (u := s.setKind f k) h hp hk ⟨rfl, rfl, rfl, rfl⟩ ⟨h.pages, h.pipes, h.ok⟩ (fun _ _ => rfl)
    (fun a => rfl) ?_ ?_ ?_ (fun a ha => absurd ha List.not_mem_nil) trivial
  · intro r
    have hsum := tabled_setKind s f k r
    rw [hnone, hkind] at hsum
    simp only [taskHolds, kindHolds, inodeHolds] at hsum ⊢
    have hrec : recorded (s.setKind f k) r = recorded s r := by
      cases r <;> rfl
    omega
  · intro a hr hn hz
    have hne : a ≠ f := by
      rintro rfl
      omega
    exact ⟨hr, (update_of_ne hne ..).trans hn⟩
  · intro a ha
    have hne : a ≠ f := by
      rintro rfl
      rw [show (s.setKind a k).ref a = s.ref a from rfl, href] at ha
      cases ha
    exact (update_of_ne hne ..).trans (h.empty a ha)

theorem inv_goOpenFd (hk : s.task p = .openFd ip f fd) (c : Choice) : Inv (s.goOpenFd p ip f c) := by
  unfold State.goOpenFd
  split
  · exact inv_setKind h hp hk fun _ => rfl
  · exact inv_setKind h hp hk fun _ => rfl

theorem inv_goPipealloc (hk : s.task p = .pipealloc) : Inv (s.goPipealloc p) := by
  unfold State.goPipealloc
  split
  · exact inv_giveUp h hp hk (fun a => rfl) fun r => rfl
  · rename_i f hf
    refine inv_take h hp hk hf (fun a => ?_) (fun r => rfl) (List.cons_subset_cons f (List.nil_subset _)) trivial
    simp only [held, stale, carries, Nat.add_zero]

theorem inv_goPipeFile (hk : s.task p = .pipeFile rf) : Inv (s.goPipeFile p rf) := by
  unfold State.goPipeFile
  split
  · refine inv_giveUp h hp hk (fun a => ?_) fun r => rfl
    simp only [held, stale, carries, one, List.count_cons, List.count_nil, beq_iff_eq, Nat.zero_add]
  · rename_i f hf
    obtain ⟨hrf, -, -⟩ := (h.proper p).fresh rf (by rw [hk]; exact List.mem_singleton_self rf)
    refine inv_take h hp hk hf (fun a => ?_) (fun r => rfl) ?_ ?_
    · simp only [held, stale, carries]
      omega
    · simp [fresh]
    · rintro rfl
      rw [ref_of_filealloc hf] at hrf
      cases hrf

end Turns

theorem tabled_newPipe (s : State) (pi : Nat) {rf wf : Fin NFILE} (hne : rf ≠ wf) (hr : s.kind rf = .none)
    (hw : s.kind wf = .none) (r : Res) :
    tabled (s.newPipe pi rf wf) r = tabled s r + one (.tip pi false) r + one (.tip pi true) r := by
  have h₁ := tabled_setKind s rf (.pipe pi false) r
  have h₂ := tabled_setKind (s.setKind rf (.pipe pi false)) wf (.pipe pi true) r
  have hkind : (s.setKind rf (.pipe pi false)).kind wf = .none := by
    exact (update_of_ne (Ne.symm hne) ..).trans hw
  have heq : tabled (s.newPipe pi rf wf) r = tabled ((s.setKind rf (.pipe pi false)).setKind wf (.pipe pi true)) r :=
    tabled_congr rfl r
  rw [hr] at h₁
  rw [hkind] at h₂
  simp only [kindHolds] at h₁ h₂
  omega

theorem recorded_newPipe {pi : Nat} (h : s.pipe pi = none) (rf wf : Fin NFILE) (r : Res) :
    recorded (s.newPipe pi rf wf) r = recorded s r + one (.tip pi false) r + one (.tip pi true) r := by
  cases r with
  | inode i => simp [recorded, State.newPipe, one]
  | tip pj w =>
    simp only [recorded, State.newPipe, one, Res.tip.injEq]
    by_cases hj : pi = pj
    · subst hj
      rw [update_self, h]
      cases w <;> simp [isOpen]
    · rw [update_of_ne (Ne.symm hj), if_neg fun hc => hj hc.1, if_neg fun hc => hj hc.1]
      rfl

theorem intact_newPipe (h : Intact s) {pi : Nat} (hpi : s.pipe pi = none) (rf wf : Fin NFILE) :
    Intact (s.newPipe pi rf wf) := by
  refine ⟨fun pj => ?_, fun pj x hx => ?_, h.ok⟩
  · have hpages := h.pages pj
    simp only [State.newPipe]
    by_cases hj : pj = pi
    · subst hj
      rw [hpi] at hpages
      simpa using hpages
    · simp only [update_of_ne hj]
      exact hpages
  · simp only [State.newPipe] at hx
    by_cases hj : pj = pi
    · subst hj
      rw [update_self] at hx
      cases hx
      exact .inl rfl
    · rw [update_of_ne hj] at hx
      exact h.pipes pj x hx

section Pipes

variable {rf wf : Fin NFILE} {fd₀ fd₁ : Fin NOFILE} (h : Inv s) (hp : s.status p = .alive)

include h hp

theorem inv_goPipeFiles (hk : s.task p = .pipeFiles rf wf) {c : Choice} (hs : s.goPipeFiles p rf wf c = some t) :
    Inv t := by
  have hne : rf ≠ wf := doing_of h hk
  obtain ⟨hr, hrn, hrs⟩ := (h.proper p).fresh rf (by rw [hk]; exact List.mem_cons_self)
  obtain ⟨hw, hwn, hws⟩ := (h.proper p).fresh wf (by rw [hk]; exact List.mem_cons_of_mem _ List.mem_cons_self)
  unfold State.goPipeFiles at hs
  split at hs
  · rename_i pi
    split at hs
    · rename_i hpi
      cases hs
      refine act (u := s.newPipe pi rf wf) h hp hk ⟨rfl, rfl, rfl, rfl⟩ (intact_newPipe h.toIntact hpi rf wf)
        (fun _ _ => rfl) (fun a => rfl) ?_ ?_ ?_ (fun a ha => absurd ha List.not_mem_nil) trivial
      · intro r
        rw [recorded_newPipe hpi, tabled_newPipe s pi hne hrn hwn]
        simp only [taskHolds]
        omega
      · intro a har han haz
        rw [share, hk] at hrs hws
        have ha₁ : a ≠ rf := by
          rintro rfl
          omega
        have ha₂ : a ≠ wf := by
          rintro rfl
          omega
        refine ⟨har, ?_⟩
        simp only [State.newPipe, update_of_ne ha₂, update_of_ne ha₁, han]
      · intro a ha
        have ha₁ : a ≠ rf := by
          rintro rfl
          rw [show (s.newPipe pi a wf).ref a = s.ref a from rfl, hr] at ha
          cases ha
        have ha₂ : a ≠ wf := by
          rintro rfl
          rw [show (s.newPipe pi rf a).ref a = s.ref a from rfl, hw] at ha
          cases ha
        simp only [State.newPipe, update_of_ne ha₂, update_of_ne ha₁]
        exact h.empty a ha
    · cases hs
  · cases hs
    refine inv_giveUp h hp hk (fun a => ?_) fun r => rfl
    simp only [held, stale, carries, one, List.count_cons, List.count_nil, beq_iff_eq]
    omega

theorem inv_goPipeMade (hk : s.task p = .pipeMade rf wf) : Inv (s.goPipeMade p rf wf) := by
  unfold State.goPipeMade
  split
  · refine inv_giveUp h hp hk (fun a => ?_) fun r => rfl
    simp only [held, stale, carries, one, List.count_cons, List.count_nil, beq_iff_eq]
    omega
  · rename_i fd hfd
    refine move h hp hk (fun q hq => update_of_ne hq ..) (fun a => ?_) (fun r => rfl) (List.nil_subset _) ?_
    · simp only [held, stale, carries, update_self, slots_free (ofile_of_fdalloc hfd), slot_some]
      omega
    · simp only [Doing, State.setTask, update_self]

theorem inv_goPipeFd (hk : s.task p = .pipeFd rf wf fd₀) : Inv (s.goPipeFd p rf wf fd₀) := by
  have hslot : s.ofile p fd₀ = some rf := doing_of h hk
  unfold State.goPipeFd
  split
  · refine move h hp hk (fun q hq => update_of_ne hq ..) (fun a => ?_) (fun r => rfl) (List.nil_subset _) trivial
    have hset := slots_clear hslot a
    simp only [held, stale, carries, one, update_self, List.count_cons, List.count_nil, beq_iff_eq] at hset ⊢
    omega
  · rename_i fd hfd
    have hfree := ofile_of_fdalloc hfd
    have hne : fd₀ ≠ fd := by
      rintro rfl
      rw [hslot] at hfree
      cases hfree
    refine move h hp hk (fun q hq => update_of_ne hq ..) (fun a => ?_) (fun r => rfl) (List.nil_subset _) ?_
    · simp only [held, stale, carries, update_self, slots_free hfree, slot_some]
      omega
    · simp only [Doing, State.setTask, update_self, update_of_ne hne]
      exact ⟨hne, hslot, trivial⟩

theorem inv_goPipeFds (hk : s.task p = .pipeFds rf wf fd₀ fd₁) (c : Choice) : Inv (s.goPipeFds p rf wf fd₀ fd₁ c) := by
  obtain ⟨hne, h₀, h₁⟩ := doing_of h hk
  unfold State.goPipeFds
  split
  · refine move (s := s) h hp hk (fun q hq => ?_) (fun a => ?_) (fun r => rfl) (List.nil_subset _) trivial
    · simp only [State.setFd, update_of_ne hq]
    · have hset₀ := slots_clear h₀ a
      have hset₁ := slots_clear ((update_of_ne (Ne.symm hne) none (s.ofile p)).trans h₁) a
      simp only [State.setFd, held, stale, carries, one, update_self, List.count_cons, List.count_nil,
        beq_iff_eq] at hset₀ hset₁ ⊢
      omega
  · exact inv_giveUp h hp hk (fun a => rfl) fun r => rfl

theorem inv_goDup {fd : Fin NOFILE} (hk : s.task p = .dup f fd) : Inv ((s.filedup f).setTask p .idle) := by
  obtain ⟨hslot, e, he, hother⟩ := doing_of h hk
  refine inv_filedup h hp hk ?_ (fun a => ?_) (fun r => rfl) rfl trivial
  · have : 0 < slots (s.ofile p) (some fd.val) f := by
      refine slots_pos hother fun heq => he ?_
      exact (Fin.ext (Option.some.inj heq)).symm
    exact Nat.add_pos_left this _
  · simp only [held, stale, carries, List.count_nil]
    rw [slots_split (s.ofile p) fd a, hslot, slot_some]
    omega

end Pipes

end AdaptiveXv6.DescriptorCalls
