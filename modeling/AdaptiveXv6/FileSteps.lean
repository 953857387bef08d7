import AdaptiveXv6.FileReferences

namespace AdaptiveXv6.FileSteps

open Tallies OpenFiles FileReferences Function

variable {s t : State} {p : Fin NPROC} {f : Fin NFILE}

theorem ref_of_filealloc (h : s.filealloc = some f) : s.ref f = 0 := by
  have := List.find?_some h
  simpa using this

theorem ofile_of_fdalloc {fd : Fin NOFILE} (h : s.fdalloc p = some fd) : s.ofile p fd = none := by
  have := List.find?_some h
  simpa using this

structure Same (s t : State) : Prop where
  ofile : t.ofile = s.ofile
  cwd : t.cwd = s.cwd
  status : t.status = s.status
  task : t.task = s.task

theorem Same.refl (s : State) : Same s s := ⟨rfl, rfl, rfl, rfl⟩

structure Put (s : State) (d : Kind) (t : State) : Prop extends Same s t, Intact t where
  ref : t.ref = s.ref
  kind : t.kind = s.kind
  recorded : ∀ r, recorded t r + kindHolds d r = recorded s r

theorem iput_spec (h : Inv s) {ip : Nat} (hle : 0 < s.iref ip) {d : Kind}
    (hd : ∀ r, kindHolds d r = one (.inode ip) r) : Put s d (s.iput ip) := by
  rw [State.iput, if_neg (by omega)]
  refine ⟨⟨rfl, rfl, rfl, rfl⟩, ⟨h.pages, h.pipes, h.ok⟩, rfl, rfl, ?_⟩
  intro r
  rw [hd]
  cases r with
  | tip pi w =>
    simp [FileReferences.recorded, one]
  | inode i =>
    simp only [FileReferences.recorded, one, Res.inode.injEq]
    by_cases hi : ip = i
    · subst hi
      rw [if_pos rfl, update_self]
      omega
    · rw [if_neg hi, update_of_ne (Ne.symm hi)]
      rfl

theorem isOpen_shut (x : Pipe) (w w' : Bool) :
    (isOpen (some (State.shut x w)) w').toNat + (if w = w' ∧ isOpen (some x) w = true then 1 else 0) =
      (isOpen (some x) w').toNat := by
  obtain ⟨r, o⟩ := x
  cases w <;> cases w' <;> cases r <;> cases o <;> rfl

theorem shut_open {x : Pipe} {w : Bool} (h : ¬((State.shut x w).readopen = false ∧ (State.shut x w).writeopen = false)) :
    (State.shut x w).readopen = true ∨ (State.shut x w).writeopen = true := by
  rw [not_and_or, Bool.not_eq_false, Bool.not_eq_false] at h
  exact h

theorem isOpen_shut_none {x : Pipe} {w : Bool}
    (h : (State.shut x w).readopen = false ∧ (State.shut x w).writeopen = false) (w' : Bool) :
    isOpen (some (State.shut x w)) w' = false := by
  cases w' with
  | true => exact h.2
  | false => exact h.1

theorem pipeclose_spec (h : Inv s) {pi : Nat} {w : Bool} (hle : isOpen (s.pipe pi) w = true) :
    Put s (.pipe pi w) (s.pipeclose pi w) := by
  rw [State.pipeclose]
  cases hx : s.pipe pi with
  | none =>
    rw [hx] at hle
    cases hle
  | some x =>
    rw [hx] at hle
    -- the end that was shut and what it leaves of every other end
    have hrec : ∀ v, (∀ w', isOpen v w' = isOpen (some (State.shut x w)) w') → ∀ r,
        recorded { s with pipe := update s.pipe pi v } r + kindHolds (.pipe pi w) r = recorded s r := by
      intro v hv r
      cases r with
      | inode i => simp [FileReferences.recorded, kindHolds, one]
      | tip pj w' =>
        simp only [FileReferences.recorded, kindHolds, one, Res.tip.injEq]
        by_cases hj : pi = pj
        · subst hj
          rw [update_self, hv, hx, ← isOpen_shut x w w', hle]
          simp
        · rw [update_of_ne (Ne.symm hj), if_neg fun hc => hj hc.1]
          rfl
    -- the page counts as freed exactly when both ends are shut
    have hintact : ∀ (v : Option Pipe) (freed : Nat → Nat), (∀ pj, pj ≠ pi → freed pj = s.freed pj) →
        s.freed pi + 1 = freed pi + v.isSome.toNat → (∀ y, v = some y → y.readopen = true ∨ y.writeopen = true) →
        Intact { s with pipe := update s.pipe pi v, freed := freed } := by
      intro v freed hother hpi hv
      refine ⟨fun pj => ?_, fun pj y hy => ?_, h.ok⟩
      · have hpj := h.pages pj
        by_cases hj : pj = pi
        · subst hj
          rw [hx] at hpj
          simp only [update_self]
          exact hpj.trans hpi
        · simp only [update_of_ne hj, hother pj hj]
          exact hpj
      · by_cases hj : pj = pi
        · subst hj
          simp only [update_self] at hy
          exact hv y hy
        · simp only [update_of_ne hj] at hy
          exact h.pipes pj y hy
    simp only
    split
    · rename_i hz
      refine ⟨⟨rfl, rfl, rfl, rfl⟩, hintact none _ (fun pj hj => update_of_ne hj ..) ?_ (by simp), rfl, rfl, ?_⟩
      · rw [update_self]
        rfl
      · exact hrec none fun w' => (isOpen_shut_none hz w').symm
    · rename_i hz
      refine ⟨⟨rfl, rfl, rfl, rfl⟩, hintact _ _ (fun _ _ => rfl) rfl ?_, rfl, rfl, hrec _ fun w' => rfl⟩
      rintro y ⟨⟩
      exact shut_open hz

theorem put_spec (h : Inv s) {d : Kind} (hle : ∀ r, kindHolds d r ≤ recorded s r) : Put s d (s.put d) := by
  cases d with
  | none => exact ⟨.refl s, h.toIntact, rfl, rfl, fun _ => rfl⟩
  | pipe pi w =>
    refine pipeclose_spec h ?_
    have := hle (.tip pi w)
    simp only [kindHolds, one, if_true, FileReferences.recorded] at this
    cases ho : isOpen (s.pipe pi) w with
    | true => rfl
    | false =>
      rw [ho] at this
      cases this
  | inode ip | device ip n =>
    refine iput_spec h ?_ fun _ => rfl
    have := hle (.inode ip)
    simpa [kindHolds, one, FileReferences.recorded, Nat.one_le_iff_ne_zero, Nat.pos_iff_ne_zero] using this

theorem owns_le (h : Inv s) (p : Fin NPROC) (r : Res) : owns s p r ≤ recorded s r := by
  rw [h.res]
  exact (Finset.single_le_sum (f := fun q => owns s q r) (fun _ _ => Nat.zero_le _) (Finset.mem_univ p)).trans
    (Nat.le_add_left ..)

structure Unref (s : State) (f : Fin NFILE) (t : State) (d : Kind) : Prop extends Same s t, Intact t where
  ref : ∀ a, t.ref a + one f a = s.ref a
  kept : ∀ a, a ≠ f → t.kind a = s.kind a
  empty : ∀ a, t.ref a = 0 → t.kind a = .none
  tabled : ∀ r, tabled t r + kindHolds d r = tabled s r
  recorded : ∀ r, recorded t r = recorded s r

theorem update_one (g : Fin NFILE → Nat) (f : Fin NFILE) (n : Nat) (a : Fin NFILE) :
    update g f n a + one f a * g f = g a + one f a * n := by
  rw [one]
  by_cases ha : f = a
  · subst ha
    rw [update_self, if_pos rfl, Nat.one_mul, Nat.one_mul, Nat.add_comm]
  · rw [update_of_ne (Ne.symm ha), if_neg ha, Nat.zero_mul, Nat.zero_mul]

theorem update_add_one (g : Fin NFILE → Nat) (f : Fin NFILE) {n : Nat} (hn : n + 1 = g f) (a : Fin NFILE) :
    update g f n a + one f a = g a := by
  have := update_one g f n a
  rw [← hn, Nat.mul_succ] at this
  omega

theorem update_one_add (g : Fin NFILE → Nat) (f : Fin NFILE) {n : Nat} (hn : n = g f + 1) (a : Fin NFILE) :
    update g f n a = g a + one f a := by
  have := update_one g f n a
  rw [hn, Nat.mul_succ, ← hn] at this
  omega

theorem tabled_setKind (s : State) (f : Fin NFILE) (k : Kind) (r : Res) :
    tabled (s.setKind f k) r + kindHolds (s.kind f) r = tabled s r + kindHolds k r := by
  have := sum_change (p := f) (f := fun a => kindHolds (s.kind a) r)
    (g := fun a => kindHolds (update s.kind f k a) r)
    (fun a ha => by rw [update_of_ne ha])
  rwa [update_self] at this

theorem tabled_congr (h : t.kind = s.kind) (r : Res) : tabled t r = tabled s r := by
  rw [tabled, tabled, h]

theorem unref_spec (h : Inv s) (hf : 0 < s.ref f) : Unref s f (s.unref f).1 (s.unref f).2 := by
  rw [State.unref, if_neg (by omega)]
  split
  · refine ⟨⟨rfl, rfl, rfl, rfl⟩, ⟨h.pages, h.pipes, h.ok⟩, update_add_one s.ref f (by omega), fun _ _ => rfl, ?_,
      fun r => (Nat.add_zero _).trans (tabled_congr rfl r), fun r => ?_⟩
    · intro a ha
      refine h.empty a ?_
      by_cases haf : a = f
      · subst haf
        simp only [update_self] at ha
        omega
      · simpa only [update_of_ne haf] using ha
    · cases r <;> rfl
  · refine ⟨⟨rfl, rfl, rfl, rfl⟩, ⟨h.pages, h.pipes, h.ok⟩, update_add_one s.ref f (by omega),
      fun a ha => update_of_ne ha .., ?_, ?_, fun r => ?_⟩
    · intro a ha
      by_cases haf : a = f
      · subst haf
        exact update_self ..
      · simp only [update_of_ne haf] at ha ⊢
        exact h.empty a ha
    · intro r
      exact (tabled_setKind s f .none r).trans (Nat.add_zero _)
    · cases r <;> rfl

theorem doing_of (h : Inv s) {k : Task} (hk : s.task p = k) : Doing s p k := hk ▸ (h.proper p).doing

theorem alive_of_task (h : Inv s) (hk : s.task p ≠ .idle) : s.status p = .alive := by
  by_contra hn
  exact hk ((h.proper p).quiet hn)

theorem take_ref {a : Fin NFILE} (h : a ≠ f) : (s.take f).ref a = s.ref a := update_of_ne h ..

theorem recorded_idup (s : State) (ip : Nat) (r : Res) : recorded (s.idup ip) r = recorded s r + one (.inode ip) r := by
  cases r with
  | tip pi w => simp [recorded, State.idup, one]
  | inode i =>
    simp only [recorded, State.idup, one, Res.inode.injEq]
    by_cases hi : ip = i
    · subst hi
      rw [update_self, if_pos rfl]
    · rw [update_of_ne (Ne.symm hi), if_neg hi]
      rfl

section Turns

variable {files : Fin NPROC → Fin NOFILE → Option (Fin NFILE)} {j k : Task}
variable (h : Inv s) (hp : s.status p = .alive) (hj : s.task p = j)

include h hp hj

theorem act {u : State} (hu : Same s u) (hintact : Intact u) (hfiles : ∀ q, q ≠ p → files q = s.ofile q)
    (hrefs : ∀ a, u.ref a + held (s.ofile p) j a = s.ref a + held (files p) k a)
    (hres : ∀ r, recorded u r + (tabled s r + taskHolds j r) = recorded s r + (tabled u r + taskHolds k r))
    (hkept : ∀ f, s.ref f = 1 → s.kind f = .none → held (s.ofile p) j f = 0 → u.ref f = 1 ∧ u.kind f = .none)
    (hempty : ∀ f, u.ref f = 0 → u.kind f = .none)
    (hnew : ∀ f ∈ fresh k, u.ref f = 1 ∧ u.kind f = .none ∧ 0 < held (files p) k f)
    (hdoing : Doing (State.setTask { u with ofile := files } p k) p k) :
    Inv (State.setTask { u with ofile := files } p k) := by
  subst hj
  have hs : ∀ a, share (State.setTask { u with ofile := files } p k) p a = held (files p) k a := by
    intro a
    simp only [share, State.setTask, update_self]
  refine FileReferences.Inv.change h (fun q hq => absurd (hp.symm.trans hq) (by simp)) ?_ ?_ ?_ hkept hempty
    ⟨hintact.pages, hintact.pipes, hintact.ok⟩ ?_
  · intro q hq
    simp only [State.setTask, update_of_ne hq, hfiles q hq, hu.cwd, hu.status, hu.task, and_self]
  · intro a
    rw [hs]
    exact hrefs a
  · intro r
    have hr := hres r
    have htabled : tabled (State.setTask { u with ofile := files } p k) r = tabled u r := rfl
    have hrec : recorded (State.setTask { u with ofile := files } p k) r = recorded u r := by
      cases r <;> rfl
    have howns : owns (State.setTask { u with ofile := files } p k) p r =
        taskHolds k r + inodeHolds (s.cwd p) r := by
      simp only [owns, State.setTask, update_self, hu.cwd]
    rw [htabled, hrec, howns, owns]
    omega
  · have halive : u.status p = .alive := by rw [hu.status, hp]
    refine ⟨fun hn => absurd halive hn, fun hn => ?_, ?_, ?_, ?_⟩
    · rcases hn with hn | hn
      · exact absurd (halive.symm.trans hn) (by decide)
      · exact absurd (halive.symm.trans hn) (by decide)
    · simp only [State.setTask, hu.cwd, hu.status]
      exact (h.proper p).home
    · intro f hf
      simp only [State.setTask, update_self] at hf
      rw [hs]
      exact hnew f hf
    · simp only [State.setTask, update_self]
      exact hdoing

theorem move (hfiles : ∀ q, q ≠ p → files q = s.ofile q)
    (hheld : ∀ a, held (files p) k a = held (s.ofile p) j a) (hholds : ∀ r, taskHolds k r = taskHolds j r)
    (hfresh : fresh k ⊆ fresh j) (hdoing : Doing (State.setTask { s with ofile := files } p k) p k) :
    Inv (State.setTask { s with ofile := files } p k) := by
  refine act h hp hj (.refl s) h.toIntact hfiles ?_ ?_ (fun f hr hk _ => ⟨hr, hk⟩) h.empty ?_ hdoing
  · intro a
    rw [hheld]
  · intro r
    rw [hholds]
  · intro f hf
    rw [hheld, ← hj]
    exact (h.proper p).fresh f (hj ▸ hfresh hf)

theorem inv_take (hf : s.filealloc = some f) (hheld : ∀ a, held (s.ofile p) k a = held (s.ofile p) j a + one f a)
    (hholds : ∀ r, taskHolds k r = taskHolds j r) (hnew : fresh k ⊆ f :: fresh j)
    (hdoing : Doing ((s.take f).setTask p k) p k) : Inv ((s.take f).setTask p k) := by
  have hz := ref_of_filealloc hf
  have hne : ∀ a, s.ref a = 1 → a ≠ f := by
    rintro a ha rfl
    omega
  refine act (u := s.take f) h hp hj ⟨rfl, rfl, rfl, rfl⟩ ⟨h.pages, h.pipes, h.ok⟩ (fun _ _ => rfl) ?_ ?_ ?_ ?_ ?_ hdoing
  · intro a
    simp only [State.take, hheld, update_one_add s.ref f (n := 1) (by omega)]
    omega
  · intro r
    rw [hholds]
    rfl
  · intro a hr hk _
    exact ⟨(take_ref (hne a hr)).trans hr, hk⟩
  · intro a ha
    by_cases haf : a = f
    · subst haf
      exact h.empty a hz
    · rw [take_ref haf] at ha
      exact h.empty a ha
  · intro a ha
    simp only [State.take, hheld]
    rcases List.mem_cons.mp (hnew ha) with rfl | hold
    · refine ⟨update_self .., h.empty a hz, ?_⟩
      rw [one, if_pos rfl]
      omega
    · obtain ⟨h₁, h₂, h₃⟩ := (h.proper p).fresh a (hj ▸ hold)
      rw [share, hj] at h₃
      exact ⟨(take_ref (hne a h₁)).trans h₁, h₂, by omega⟩

theorem inv_filedup (hf : 0 < held (s.ofile p) j f)
    (hheld : ∀ a, held (s.ofile p) k a = held (s.ofile p) j a + one f a)
    (hholds : ∀ r, taskHolds k r = taskHolds j r) (hnew : fresh k = [])
    (hdoing : Doing ((s.filedup f).setTask p k) p k) : Inv ((s.filedup f).setTask p k) := by
  have hpos : 0 < s.ref f := (hj ▸ hf).trans_le (share_le h p f)
  have hdup : s.filedup f = { s with ref := update s.ref f (s.ref f + 1) } := by
    rw [State.filedup, if_neg (by omega)]
  rw [hdup] at hdoing ⊢
  refine act (u := { s with ref := update s.ref f (s.ref f + 1) }) h hp hj ⟨rfl, rfl, rfl, rfl⟩
    ⟨h.pages, h.pipes, h.ok⟩ (fun _ _ => rfl) ?_ ?_ ?_ ?_ (by simp [hnew]) hdoing
  · intro a
    simp only [hheld, update_one_add s.ref f rfl]
    omega
  · intro r
    rw [hholds]
    rfl
  · intro a hr hk hz
    have hne : a ≠ f := by
      rintro rfl
      omega
    exact ⟨by simp only [update_of_ne hne, hr], hk⟩
  · intro a ha
    by_cases haf : a = f
    · subst haf
      simp at ha
    · simp only [update_of_ne haf] at ha
      exact h.empty a ha

theorem inv_unref (hf : 0 < held (s.ofile p) j f)
    (hheld : ∀ a, held (s.ofile p) k a + one f a = held (s.ofile p) j a)
    (hholds : ∀ r, taskHolds k r = taskHolds j r + kindHolds (s.unref f).2 r) (hnew : fresh k = [])
    (hdoing : Doing ((s.unref f).1.setTask p k) p k) : Inv ((s.unref f).1.setTask p k) := by
  have hu := unref_spec h ((hj ▸ hf).trans_le (share_le h p f))
  refine act (u := (s.unref f).1) h hp hj hu.toSame hu.toIntact (fun q _ => by rw [hu.ofile]) ?_ ?_ ?_ hu.empty
    (by simp [hnew]) hdoing
  · intro a
    have := hu.ref a
    have := hheld a
    rw [hu.ofile]
    omega
  · intro r
    rw [hu.recorded, hholds]
    have := hu.tabled r
    omega
  · intro a hr hk hz
    have hne : f ≠ a := by
      rintro rfl
      omega
    have := hu.ref a
    rw [one, if_neg hne] at this
    exact ⟨by omega, by rw [hu.kept a (Ne.symm hne), hk]⟩

theorem inv_put {d : Kind} (hfiles : ∀ q, q ≠ p → files q = s.ofile q)
    (hheld : ∀ a, held (files p) k a = held (s.ofile p) j a)
    (hholds : ∀ r, taskHolds k r + kindHolds d r = taskHolds j r) (hnew : fresh k = [])
    (hdoing : Doing (State.setTask { s.put d with ofile := files } p k) p k) :
    Inv (State.setTask { s.put d with ofile := files } p k) := by
  have hu : Put s d (s.put d) := by
    refine put_spec h fun r => (Nat.le_trans ?_ (owns_le h p r))
    have := hholds r
    rw [owns, hj]
    omega
  refine act h hp hj hu.toSame hu.toIntact hfiles ?_ ?_ ?_ ?_ (by simp [hnew]) hdoing
  · intro a
    rw [hheld, hu.ref]
  · intro r
    have := hu.recorded r
    have := hholds r
    rw [tabled_congr hu.kind]
    omega
  · intro a hr hk _
    rw [hu.ref, hu.kind]
    exact ⟨hr, hk⟩
  · intro a ha
    rw [hu.ref] at ha
    rw [hu.kind]
    exact h.empty a ha

theorem inv_idup {ip : Nat} (hheld : ∀ a, held (s.ofile p) k a = held (s.ofile p) j a)
    (hholds : ∀ r, taskHolds k r = taskHolds j r + one (.inode ip) r) (hnew : fresh k = [])
    (hdoing : Doing ((s.idup ip).setTask p k) p k) : Inv ((s.idup ip).setTask p k) := by
  refine act (u := s.idup ip) h hp hj ⟨rfl, rfl, rfl, rfl⟩ ⟨h.pages, h.pipes, h.ok⟩ (fun _ _ => rfl) ?_ ?_
    (fun f hr hk _ => ⟨hr, hk⟩) h.empty (by simp [hnew]) hdoing
  · exact fun a => congrArg (s.ref a + ·) (hheld a).symm
  · intro r
    rw [hholds, recorded_idup]
    have : tabled (s.idup ip) r = tabled s r := rfl
    omega

end Turns

end AdaptiveXv6.FileSteps
