import AdaptiveXv6.Scan

namespace AdaptiveXv6.Sweeps

open Process Ops Machine Kernel Steps Scan Runs Function

variable {n : Nat} {s : Kernel n} {c : Fin n} {a : Cpu} {T : Slot → Proc} {t : Nat} {e : Event n} {pc : Pc}

def put (s : Kernel n) (c : Fin n) (a : Cpu) (T : Slot → Proc) (ticks : Nat) : Kernel n :=
  { s with procs := T, cpus := Function.update s.cpus c a, ticks := ticks }

@[simp] theorem put_procs : (put s c a T t).procs = T := rfl

@[simp] theorem put_lock : (put s c a T t).lock = s.lock := rfl

@[simp] theorem put_proc : (put s c a T t).proc c = a.proc := by simp [put, Kernel.proc]

@[simp] theorem put_pc : (put s c a T t).pc c = a.pc := by simp [put, Kernel.pc]

theorem put_comm {d : Fin n} (h : c ≠ d) (a a' : Cpu) (T T' : Slot → Proc) (t t' : Nat) :
    put (put s c a T t) d a' T' t' = put (put s d a' T t) c a T' t' := by
  simp only [put, update_comm h]

theorem put_other {d : Fin n} {a' : Cpu} (h : c ≠ d) (hd : s.cpus d = a') (a : Cpu) (T : Slot → Proc)
    (t : Nat) :
    put s c a T t = put (put s c a T t) d a' T t := by
  have hself : Function.update (Function.update s.cpus c a) d a' = Function.update s.cpus c a := by
    rw [update_eq_self_iff, update_of_ne h.symm, hd]
  simp only [put, hself]

def held (s : Kernel n) (p : Slot) (c : Fin n) : Kernel n :=
  { s with lock := Function.update s.lock p (some c) }

theorem step_jump (hm : Moves (put s c a T t) e ((put s c a T t).jump c pc)) :
    (put s c a T t).step e = some (put s c ⟨a.proc, pc⟩ T t) := by
  refine step_eq_some.mpr ⟨_, hm, rfl, ?_⟩
  simp [put, perform, Kernel.jump, Kernel.proc]

theorem step_locked {p : Slot} {op : Op} (hlock : s.lock p = none)
    (hm : Moves (put s c a T t) e ((put s c a T t).locked c p op pc)) :
    (put s c a T t).step e =
      some (put s c ⟨a.proc, pc⟩ (Function.update T p (op.apply t (T p))) t) := by
  refine step_eq_some.mpr ⟨_, hm, ?_, ?_⟩
  · exact ready_iff.mpr (fun k hk => by cases hk; exact hlock)
  · have hself : Function.update s.lock p none = s.lock := update_eq_self_iff.mpr hlock.symm
    simp [put, perform, Kernel.locked, Kernel.proc, hself]

theorem step_holding {p : Slot} {op : Op} (hlock : s.lock p = none) {a' : Cpu}
    (hm : Moves (put s c a T t) e ⟨c, a', some ⟨p, op, none, some c⟩, t, s.nextpid⟩) :
    (put s c a T t).step e =
      some (put (held s p c) c a' (Function.update T p (op.apply t (T p))) t) := by
  refine step_eq_some.mpr ⟨_, hm, ?_, ?_⟩
  · exact ready_iff.mpr (fun k hk => by cases hk; exact hlock)
  · simp [put, perform, held]

theorem step_releasing {p : Slot} {op : Op} (hlock : s.lock p = none) {a' : Cpu}
    (hm : Moves (put (held s p c) c a T t) e ((put (held s p c) c a T t).unlock c p op a')) :
    (put (held s p c) c a T t).step e =
      some (put s c a' (Function.update T p (op.apply t (T p))) t) := by
  refine step_eq_some.mpr ⟨_, hm, ?_, ?_⟩
  · exact ready_iff.mpr (fun k hk => by cases hk; simp [held])
  · have hself : Function.update s.lock p none = s.lock := update_eq_self_iff.mpr hlock.symm
    simp [put, perform, held, Kernel.unlock, hself]

def Slots (K : Slot → Proc → Prop) (s : Kernel n) : Prop := ∀ j, K j (s.procs j)

def Any : Slot → Proc → Prop := fun _ _ => True

theorem Slots.update {K : Slot → Proc → Prop} {p : Slot} (h : ∀ j, K j (T j)) {x : Proc} (hx : K p x) :
    ∀ j, K j (Function.update T p x j) := by
  intro j
  by_cases hj : j = p
  · subst hj
    rw [update_self]
    exact hx
  · rw [update_of_ne hj]
    exact h j

def swept (f : Slot → Proc → Proc) (T : Slot → Proc) (k : Nat) : Slot → Proc :=
  fun i => if i.val < k then f i (T i) else T i

theorem swept_self (f : Slot → Proc → Proc) (T : Slot → Proc) (i : Slot) : swept f T i.val i = T i :=
  if_neg (Nat.lt_irrefl _)

theorem swept_succ (f : Slot → Proc → Proc) (T : Slot → Proc) (i : Slot) :
    Function.update (swept f T i.val) i (f i (T i)) = swept f T (i.val + 1) := by
  funext j
  by_cases hj : j = i
  · subst hj
    simp [swept]
  · have hne : j.val ≠ i.val := fun h => hj (Fin.ext h)
    rw [update_of_ne hj]
    by_cases hlt : j.val < i.val
    · simp only [swept, if_pos hlt, if_pos (Nat.lt_succ_of_lt hlt)]
    · simp only [swept, if_neg hlt, if_neg (show ¬j.val < i.val + 1 by omega)]

theorem sweep {K : Slot → Proc → Prop} (e : Event n) (proc : Option Slot) (pcs : Nat → Pc)
    (f : Slot → Proc → Proc) (hK : ∀ j, K j (T j)) (hK' : ∀ j, K j (f j (T j)))
    (hstep : ∀ i : Slot, (put s c ⟨proc, pcs i.val⟩ (swept f T i.val) t).step e =
      some (put s c ⟨proc, pcs (i.val + 1)⟩ (Function.update (swept f T i.val) i (f i (T i))) t)) :
    Path Kernel.step (Slots K) (put s c ⟨proc, pcs 0⟩ T t)
      (put s c ⟨proc, pcs NPROC⟩ (fun i => f i (T i)) t) := by
  have hslots : ∀ k, Slots K (put s c ⟨proc, pcs k⟩ (swept f T k) t) := by
    intro k j
    simp only [put_procs, swept]
    split
    · exact hK' j
    · exact hK j
  have hpath : ∀ k, k ≤ NPROC → Path Kernel.step (Slots K) (put s c ⟨proc, pcs 0⟩ (swept f T 0) t)
      (put s c ⟨proc, pcs k⟩ (swept f T k) t) := by
    intro k hk
    induction k with
    | zero => exact .refl (hslots 0)
    | succ k ih =>
      have h := hstep ⟨k, hk⟩
      rw [swept_succ] at h
      exact (ih (Nat.le_of_succ_le hk)).snoc h (hslots (k + 1))
  have hzero : swept f T 0 = T := by
    funext j
    exact if_neg (Nat.not_lt_zero _)
  have hall : swept f T NPROC = fun i => f i (T i) := by
    funext j
    exact if_pos j.isLt
  have h := hpath NPROC (Nat.le_refl _)
  rwa [hzero, hall] at h

def loopPc (body : Slot → Pc) (done : Pc) (k : Nat) : Pc := if h : k < NPROC then body ⟨k, h⟩ else done

theorem loopPc_slot (body : Slot → Pc) (done : Pc) (i : Slot) : loopPc body done i.val = body i :=
  dif_pos i.isLt

def scanPc (T : Slot → Proc) (k : Nat) : Pc :=
  loopPc (fun i => .pass1 i (best T i.val).1 (best T i.val).2) (.pass2 (best T k).1 (best T k).2) k

theorem afterVisit_eq (T : Slot → Proc) (i : Slot) :
    afterVisit i (better T i (best T i.val).1 (best T i.val).2) = scanPc T (i.val + 1) := by
  rw [← best_succ]
  unfold afterVisit next? scanPc loopPc
  split <;> split at * <;> simp_all

theorem afterWakeup_eq (chan : Nat) (i : Slot) (clock : Bool) (ret : Ret) :
    afterWakeup chan i clock ret =
      loopPc (fun j => .wakeup chan j clock ret) (if clock then .accounting 0 ret else ret.pc)
        (i.val + 1) := by
  unfold afterWakeup next? loopPc
  split <;> split at * <;> simp_all

theorem afterAccount_eq (i : Slot) (ret : Ret) :
    afterAccount i ret = loopPc (fun j => .accounting j ret) ret.pc (i.val + 1) := by
  unfold afterAccount next? loopPc
  split <;> split at * <;> simp_all

end AdaptiveXv6.Sweeps
