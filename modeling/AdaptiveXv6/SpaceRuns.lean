import AdaptiveXv6.ExecSteps

namespace AdaptiveXv6.SpaceRuns

open MemLayout Bytes Programs PageTables PageOwnership AddressSpaces SpaceSteps SpaceCopies SpaceCalls ExecSteps Runs
  Function

variable {P : Type} [DecidableEq P]

/-- Pages that the kernel takes at boot and pipes have numbers; copyin and copyout stand for the system calls
that copy from and to user memory. A run goes on where forkret() would panic. -/
inductive Event (P : Type)
  | boot (k : Nat)
  | userinit (p : P)
  | forkret (find : List Byte → Option Image) (p : P)
  | fork (p np : P)
  | exec (find : List Byte → Option Image) (p : P) (upath uargv : Nat)
  | sbrk (p : P) (n : Int) (lazy : Bool)
  | fault (p : P) (va : Nat)
  | copyin (p : P) (srcva len : Nat)
  | copyout (p : P) (dstva : Nat) (src : List Byte)
  | pipe (p : P) (k : Nat) (files fds : Bool) (fdarray : Nat) (fd0 fd1 : List Byte)
  | pipeclose (k : Nat)
  | exit (p : P)
  | wait (p c : P) (addr : Nat) (xstate : List Byte)

/-- When a call can be made: by a process, into a slot that is not in use, for a child that has exited. -/
def enabled (s : Vm P) : Event P → Bool
  | .boot k => s.extra (.boot k) = 0
  | .userinit p => s.mode p = .unused
  | .fork p np => s.mode p = .used && s.mode np = .unused
  | .forkret _ p | .exec _ p _ _ | .sbrk p _ _ | .fault p _ | .copyin p _ _ | .copyout p _ _ | .exit p => s.mode p = .used
  | .pipe p k _ _ _ _ _ => s.mode p = .used && s.extra (.pipe k) = 0
  | .pipeclose _ => true
  | .wait p c _ _ => s.mode p = .used && s.mode c = .zombie

section Calls

variable (lo trampoline : Nat)

def bootAlloc (k : Nat) : VmM P Unit := do
  let x ← kalloc
  setExtra (.boot k) x

def call : Event P → VmM P Unit
  | .boot k => bootAlloc k
  | .userinit p => discard (allocproc lo trampoline p)
  | .forkret find p => discard (forkret lo trampoline find p)
  | .fork p np => discard (kfork lo trampoline p np)
  | .exec find p upath uargv => discard (sysExec lo trampoline find p upath uargv)
  | .sbrk p n lazy => discard (sysSbrk lo p n lazy)
  | .fault p va => discard (vmfault lo p (some p) va)
  | .copyin p srcva len => discard (PageTables.copyin lo p (some p) srcva len)
  | .copyout p dstva src => discard (PageTables.copyout lo p (some p) dstva src)
  | .pipe p k files fds fdarray fd0 fd1 => discard (sysPipe lo p k files fds fdarray fd0 fd1)
  | .pipeclose k => freeExtra lo (.pipe k)
  | .exit p => kexit p
  | .wait p c addr xstate => discard (kwait lo p c addr xstate)

/-- One call, from a kernel that has not panicked. -/
def step (s : Except Panic (Vm P)) (e : Event P) : Option (Except Panic (Vm P)) :=
  s.toOption.bind fun s => if enabled s e then some ((call lo trampoline e s).map Prod.snd) else none

def start (luck : Nat → Bool) : Vm P where
  free := (List.range' lo (STOPPAGE - lo)).reverse
  luck := luck
  byte := fun _ _ => 1
  pt := fun _ => .null
  extra := fun _ => 0
  sz := fun _ => 0
  mode := fun _ => .unused
  regs := fun _ => ⟨0, 0, 0, []⟩

end Calls

variable {s t : Vm P} {lo trampoline : Nat}

structure Between (lo trampoline : Nat) (s : Vm P) : Prop where
  sound : Sound lo trampoline s
  args : ∀ j, s.extra (.arg j) = 0

omit [DecidableEq P] in
theorem Between.same (h : Between lo trampoline s) (ht : Sound lo trampoline t) (hsame : SameArgs s t) :
    Between lo trampoline t := ⟨ht, fun j => (hsame j).trans (h.args j)⟩

omit [DecidableEq P] in
theorem wp_discard {α : Type} {m : VmM P α} {Q : Vm P → Prop} (h : Wp m s (fun _ t => Q t) fun _ => False) :
    Wp (discard m) s (fun _ t => Q t) fun _ => False := by
  have hmap : (discard m : VmM P PUnit) = m >>= fun _ => pure ⟨⟩ := rfl
  rw [hmap]
  exact h.bind fun _ _ ht => wp_pure ht

omit [DecidableEq P] in
theorem start_between (hlo : 0 < lo) (luck : Nat → Bool) : Between lo trampoline (start lo luck : Vm P) := by
  have hnull : Shape PageTable.null :=
    ⟨fun _ _ _ h => absurd rfl h, fun _ _ h => absurd rfl h, fun _ h => absurd rfl h, nofun⟩
  have hholds : holds (start lo luck : Vm P) = fun _ => 0 := by
    funext a
    cases a with
    | table q l i => rfl
    | leaf q v => simp [holds, start, userPage, PageTable.null]
    | extra a => rfl
  have hmem : ∀ y, y ∈ (start lo luck : Vm P).free ++ [] ↔ lo ≤ y ∧ y < lo + (STOPPAGE - lo) := by
    intro y
    rw [List.append_nil, start, List.mem_reverse, List.mem_range'_1]
  refine ⟨⟨⟨?_, ?_, fun y hy => ?_, fun _ => hnull, hlo⟩,
    fun p => ⟨fun _ => ⟨rfl, rfl, rfl⟩, fun hm => absurd rfl hm⟩, rfl⟩, fun _ => rfl⟩
  · rw [hholds]
    refine ⟨fun _ h => absurd rfl h, fun _ h => absurd rfl h, fun _ _ h => absurd rfl h, fun b hb => ?_,
      fun b hb hb' hm => ?_⟩
    · refine decide_eq_true fun hfree => ?_
      have := ((hmem b).mp hfree).1
      omega
    · exact absurd ((hmem b).mpr ⟨hb, by omega⟩) (of_decide_eq_true hm)
  · rw [List.append_nil]
    exact List.nodup_reverse.mpr (List.nodup_range' ..)
  · have := (hmem y).mp hy
    omega

theorem call_between (h : Between lo trampoline s) {e : Event P} (he : enabled s e = true) :
    Wp (call lo trampoline e) s (fun _ t => Between lo trampoline t) fun _ => False := by
  have hused : ∀ {p : P}, s.mode p = .used → s.mode p ≠ .unused := by
    intro p hp
    rw [hp]
    decide
  cases e with
  | boot k =>
    have hk : s.extra (.boot k) = 0 := of_decide_eq_true he
    refine (kalloc_spec h.sound.owned).bind ?_
    rintro x s₁ ⟨hquiet, ⟨rfl, h₁⟩ | ⟨hx, h₁⟩⟩
    · have hnull : update s₁.extra (.boot k) 0 = s₁.extra := by
        refine update_eq_self_iff.mpr ?_
        rw [hquiet.extra, hk]
      have hquiet' : Quiet s { s₁ with extra := update s₁.extra (.boot k) 0 } :=
        ⟨hquiet.pt, hnull.trans hquiet.extra, hquiet.sz, hquiet.mode, hquiet.regs⟩
      refine wp_modify (h.same (Sound.quiet h.sound hquiet' (h₁.perm rfl hnull (List.Perm.refl _))) fun j => ?_)
      rw [hquiet'.extra]
    · refine (setExtra_spec h₁ (by rw [hquiet.extra]; exact hk)).imp ?_
      rintro _ t ⟨hplaced, ht⟩
      have hplaced' : Placed (.boot k) x s t := ⟨hplaced.pt.trans hquiet.pt, by rw [hplaced.extra, hquiet.extra],
        hplaced.sz.trans hquiet.sz, hplaced.mode.trans hquiet.mode, hplaced.regs.trans hquiet.regs⟩
      refine h.same (Sound.placed h.sound (fun _ => by simp) hplaced' ht) fun j => ?_
      rw [hplaced'.extra, update_of_ne (by simp)]
  | userinit p =>
    have hm : s.mode p = .unused := of_decide_eq_true he
    exact wp_discard ((allocproc_spec h.sound hm).imp fun _ _ ht => h.same ht.1 (sameArgs_elsewhere ht.2.1))
  | forkret find p =>
    have hp : s.mode p = .used := of_decide_eq_true he
    exact wp_discard ((forkret_spec find h.sound (hused hp)).imp fun _ _ ht => h.same ht.sound fun j => by rw [ht.extra])
  | fork p np =>
    obtain ⟨hp, hnp⟩ := Bool.and_eq_true_iff.mp he
    exact wp_discard ((kfork_spec h.sound (hused (of_decide_eq_true hp)) (of_decide_eq_true hnp)).imp fun _ _ ht =>
      h.same ht.1 (sameArgs_elsewhere ht.2))
  | exec find p upath uargv =>
    have hp : s.mode p = .used := of_decide_eq_true he
    exact wp_discard ((sysExec_spec find h.sound (hused hp) h.args upath uargv).imp fun _ _ ht => ⟨ht.1, ht.2⟩)
  | sbrk p n lazy =>
    have hp : s.mode p = .used := of_decide_eq_true he
    exact wp_discard ((sysSbrk_spec h.sound (hused hp) n lazy).imp fun _ _ ht =>
      h.same ht.1 fun j => by rw [ht.2])
  | fault p va =>
    have hp : s.mode p = .used := of_decide_eq_true he
    exact wp_discard ((UserViews.vmfault_exact h.sound (hused hp) va).imp fun _ _ ht => h.same ht.1.sound ht.1.args)
  | copyin p srcva len =>
    have hp : s.mode p = .used := of_decide_eq_true he
    exact wp_discard ((copyin_spec h.sound (hused hp) srcva len).imp fun _ _ ht => h.same ht.sound ht.args)
  | copyout p dstva src =>
    have hp : s.mode p = .used := of_decide_eq_true he
    exact wp_discard ((copyout_spec h.sound (hused hp) dstva src).imp fun _ _ ht => h.same ht.sound ht.args)
  | pipe p k files fds fdarray fd0 fd1 =>
    obtain ⟨hp, hk⟩ := Bool.and_eq_true_iff.mp he
    exact wp_discard ((sysPipe_spec h.sound (hused (of_decide_eq_true hp)) (of_decide_eq_true hk) files fds fdarray
      fd0 fd1).imp fun _ _ ht => h.same ht.1 ht.2)
  | pipeclose k =>
    exact (freeExtra_sound h.sound fun _ => by simp).imp fun _ _ ht => h.same ht.1 (sameArgs_pipe ht.2)
  | exit p =>
    have hp : s.mode p = .used := of_decide_eq_true he
    exact (kexit_spec h.sound (hused hp)).imp fun _ _ ht => h.same ht.1 ht.2
  | wait p c addr xstate =>
    obtain ⟨hp, -⟩ := Bool.and_eq_true_iff.mp he
    exact wp_discard ((kwait_spec h.sound (hused (of_decide_eq_true hp)) addr xstate).imp fun _ _ ht =>
      h.same ht.1 ht.2)

theorem step_between {x y : Except Panic (Vm P)} {e : Event P} (h : ∃ s, x = .ok s ∧ Between lo trampoline s)
    (hs : step lo trampoline x e = some y) : ∃ s, y = .ok s ∧ Between lo trampoline s := by
  obtain ⟨s, rfl, hb⟩ := h
  change (if enabled s e = true then some ((call lo trampoline e s).map Prod.snd) else none) = some y at hs
  split at hs
  · rename_i he
    obtain ⟨a, t, hrun, ht⟩ | ⟨_, _, hfalse⟩ := (call_between hb he).cases
    · rw [hrun] at hs
      cases hs
      exact ⟨t, rfl, ht⟩
    · exact hfalse.elim
  · cases hs

theorem run_between (hlo : 0 < lo) {luck : Nat → Bool} (r : Run (step (P := P) lo trampoline) (.ok (start lo luck)))
    (k : Nat) : ∃ s, r.state k = .ok s ∧ Between lo trampoline s :=
  r.always (I := fun x => ∃ s, x = .ok s ∧ Between lo trampoline s) ⟨_, rfl, start_between hlo luck⟩
    (fun _ _ _ hx hs => step_between hx hs) k

/-- Whatever is called, and whenever kalloc() fails: no panic; each page after the kernel is on the free list
once or has one owner; and a process has no leaves from its size on but the trapframe and the trampoline. -/
theorem pages_and_spaces (lo trampoline : Nat) (hlo : KERNPAGE ≤ lo) (luck : Nat → Bool)
    (r : Run (step (P := P) lo trampoline) (.ok (start lo luck))) (k : Nat) :
    ∃ s, r.state k = .ok s ∧ s.free.Nodup ∧
      (∀ x, lo ≤ x → x < STOPPAGE →
        x ∈ s.free ∧ (∀ a, holds s a ≠ x) ∨ x ∉ s.free ∧ ∃! a, holds s a = x) ∧
      s.pt none = .null ∧ (∀ j, s.extra (.arg j) = 0) ∧
      ∀ p, s.mode p ≠ .unused → s.sz p ≤ TRAPFRAME ∧
        ∀ v, PGROUNDUP (s.sz p) / PGSIZE ≤ v → (s.pt (some p)).leaf v ≠ none →
          v = TRAPFRAME / PGSIZE ∨ v = TRAMPOLINE / PGSIZE := by
  have hpos : 0 < lo := Nat.lt_of_lt_of_le (by decide) hlo
  obtain ⟨s, hs, hb⟩ := run_between hpos r k
  have howned := hb.sound.owned
  refine ⟨s, hs, ?_, fun x hx hx' => ?_, hb.sound.making, hb.args, fun p hm => ?_⟩
  · have hnodup := howned.nodup
    rwa [List.append_nil] at hnodup
  · have hne : x ≠ 0 := by omega
    by_cases hfree : x ∈ s.free
    · refine .inl ⟨hfree, howned.held.not_held (decide_eq_false (not_not.mpr ?_)) hne⟩
      rwa [List.append_nil]
    · refine .inr ⟨hfree, ?_⟩
      obtain ⟨a, ha⟩ := howned.held.tight x hx hx' (decide_eq_true (by rwa [List.append_nil]))
      refine ⟨a, ha, fun b hb => ?_⟩
      exact howned.held.inj b a (by rw [hb]; exact hne) (hb.trans ha.symm)
  · have hspace := ((hb.sound.slot p).space hm).2
    refine ⟨hspace.size, fun v hv hsome => ?_⟩
    by_contra hout
    have hlt : v < 2 ^ 26 := ((howned.shape (some p)).leaf v hsome).2
    have hframe : v ≠ 2 ^ 26 - 2 := fun heq => hout (.inl heq)
    have htramp : v ≠ 2 ^ 26 - 1 := fun heq => hout (.inr heq)
    refine hsome (hspace.above v hv ?_)
    change v < 2 ^ 26 - 2
    omega

theorem pages_and_spaces_init : ∃ (r : Run (step (P := Unit) 0x87FFA 0x80007) (.ok (start 0x87FFA fun _ => true)))
    (s : Vm Unit), r.state 2 = .ok s ∧ s.mode () = .used ∧ s.free.length = 1 ∧ s.free.Nodup := by
  have hok : ((exec (step (P := Unit) 0x87FFA 0x80007) (.ok (start 0x87FFA fun _ => true))
      [.userinit (), .sbrk () 4096 false]).any fun x => x.toOption.any fun s =>
        s.mode () = .used && s.free.length = 1) = true := by decide +kernel
  obtain ⟨t, ht, hinit⟩ := (Option.any_eq_true _ _).mp hok
  obtain ⟨r, hr, -⟩ := exists_script ht
  obtain ⟨s, hs, hnodup, -⟩ := pages_and_spaces 0x87FFA 0x80007 (by decide) (fun _ => true) r 2
  have htwo : r.state 2 = t := hr
  rw [← htwo, hs] at hinit
  obtain ⟨hused, hlen⟩ := Bool.and_eq_true_iff.mp hinit
  exact ⟨r, s, hs, of_decide_eq_true hused, of_decide_eq_true hlen, hnodup⟩

end AdaptiveXv6.SpaceRuns
