import AdaptiveXv6.OpenFiles

namespace AdaptiveXv6.FileReferences

open Tallies OpenFiles Function

inductive Res
  | inode (ip : Nat)
  | tip (pi : Nat) (writable : Bool)
deriving DecidableEq

def one {α : Type} [DecidableEq α] (x a : α) : Nat := if x = a then 1 else 0

def kindHolds : Kind → Res → Nat
  | .none, _ => 0
  | .pipe pi w, r => one (.tip pi w) r
  | .inode ip, r => one (.inode ip) r
  | .device ip _, r => one (.inode ip) r

def inodeHolds : Option Nat → Res → Nat
  | none, _ => 0
  | some ip, r => one (.inode ip) r

def taskHolds : Task → Res → Nat
  | .closing _ d ip, r => kindHolds d r + inodeHolds ip r
  | .openInode ip, r => one (.inode ip) r
  | .openFile ip _, r => one (.inode ip) r
  | .openFd ip _ _, r => one (.inode ip) r
  | .exit _ (some d), r => kindHolds d r
  | _, _ => 0

def carries : Task → Fin NFILE → Nat
  | .closing l _ _, a => l.count a
  | .openFile _ f, a => one f a
  | .pipeFile rf, a => one rf a
  | .pipeFiles rf wf, a => one rf a + one wf a
  | .pipeMade rf wf, a => one rf a + one wf a
  | .pipeFd _ wf _, a => one wf a
  | _, _ => 0

def stale : Task → Option Nat
  | .dup _ fd => some fd
  | .exit fd (some _) => some fd
  | _ => none

def fresh : Task → List (Fin NFILE)
  | .openFile _ f => [f]
  | .openFd _ f _ => [f]
  | .pipeFile rf => [rf]
  | .pipeFiles rf wf => [rf, wf]
  | _ => []

def slots (o : Fin NOFILE → Option (Fin NFILE)) (x : Option Nat) (a : Fin NFILE) : Nat :=
  ∑ fd, if o fd = some a ∧ x ≠ some fd.val then 1 else 0

/-- References of a process with these descriptors in the middle of a call. -/
def held (o : Fin NOFILE → Option (Fin NFILE)) (k : Task) (a : Fin NFILE) : Nat := slots o (stale k) a + carries k a

def share (s : State) (p : Fin NPROC) (a : Fin NFILE) : Nat := held (s.ofile p) (s.task p) a

def owns (s : State) (p : Fin NPROC) (r : Res) : Nat := taskHolds (s.task p) r + inodeHolds (s.cwd p) r

def tabled (s : State) (r : Res) : Nat := ∑ f, kindHolds (s.kind f) r

def isOpen : Option Pipe → Bool → Bool
  | none, _ => false
  | some x, true => x.writeopen
  | some x, false => x.readopen

def recorded (s : State) : Res → Nat
  | .inode ip => s.iref ip
  | .tip pi w => (isOpen (s.pipe pi) w).toNat

section Slots

variable {o : Fin NOFILE → Option (Fin NFILE)} {fd : Fin NOFILE} {a : Fin NFILE}

def slot (v : Option (Fin NFILE)) (a : Fin NFILE) : Nat := if v = some a then 1 else 0

theorem slot_some (f a : Fin NFILE) : slot (some f) a = one f a := by
  rw [slot, one]
  by_cases h : f = a
  · simp [h]
  · simp [h]

theorem slots_split (o : Fin NOFILE → Option (Fin NFILE)) (fd : Fin NOFILE) (a : Fin NFILE) :
    slots o none a = slots o (some fd) a + slot (o fd) a := by
  have h := sum_change (p := fd)
    (f := fun e : Fin NOFILE => if o e = some a ∧ (none : Option Nat) ≠ some e.val then 1 else 0)
    (g := fun e => if o e = some a ∧ some fd.val ≠ some e.val then 1 else 0) (by
      intro e he
      have : fd.val ≠ e.val := fun h => he (Fin.ext h.symm)
      simp [this])
  simp only [ne_eq, not_true_eq_false, and_false, if_false, reduceCtorEq, not_false_eq_true, and_true] at h
  simp only [slots, slot, ne_eq, reduceCtorEq, not_false_eq_true, and_true]
  omega

theorem slots_update (v : Option (Fin NFILE)) : slots (update o fd v) (some fd) a = slots o (some fd) a := by
  refine Finset.sum_congr rfl fun e _ => ?_
  by_cases he : e = fd
  · simp [he]
  · rw [update_of_ne he]

theorem slots_set (o : Fin NOFILE → Option (Fin NFILE)) (fd : Fin NOFILE) (v : Option (Fin NFILE)) (a : Fin NFILE) :
    slots (update o fd v) none a + slot (o fd) a = slots o none a + slot v a := by
  rw [slots_split _ fd, slots_split o fd, slots_update, update_self]
  omega

theorem slots_free (h : o fd = none) (v : Option (Fin NFILE)) (a : Fin NFILE) :
    slots (update o fd v) none a = slots o none a + slot v a := by
  have := slots_set o fd v a
  rw [h] at this
  simpa [slot] using this

theorem slots_clear {f : Fin NFILE} (h : o fd = some f) (a : Fin NFILE) :
    slots (update o fd none) none a + one f a = slots o none a := by
  have := slots_set o fd none a
  rw [h, slot_some] at this
  simpa [slot] using this

theorem slots_pos (h : o fd = some a) {x : Option Nat} (hx : x ≠ some fd.val) : 0 < slots o x a := by
  rw [slots, Finset.sum_pos_iff]
  exact ⟨fd, Finset.mem_univ fd, by simp [h, hx]⟩

end Slots

variable {s t : State} {p q : Fin NPROC} {f : Fin NFILE}

def Doing (s : State) (p : Fin NPROC) : Task → Prop
  | .pipeFiles rf wf => rf ≠ wf
  | .pipeFd rf _ fd₀ => s.ofile p fd₀ = some rf
  | .pipeFds rf wf fd₀ fd₁ => fd₀ ≠ fd₁ ∧ s.ofile p fd₀ = some rf ∧ s.ofile p fd₁ = some wf
  | .dup f fd => s.ofile p fd = some f ∧ ∃ e ≠ fd, s.ofile p e = some f
  | .fork np i => s.status np = .used p ∧ ∀ fd : Fin NOFILE, i ≤ fd.val → s.ofile np fd = none
  | .exit fd d => (∀ e : Fin NOFILE, e.val < fd → s.ofile p e = none) ∧
    (d ≠ none → ∃ h : fd < NOFILE, s.ofile p ⟨fd, h⟩ ≠ none)
  | _ => True

structure Proper (s : State) (p : Fin NPROC) : Prop where
  quiet : s.status p ≠ .alive → s.task p = .idle
  gone : s.status p = .unused ∨ s.status p = .zombie → ∀ fd, s.ofile p fd = none
  home : (s.cwd p).isSome ↔ s.status p = .alive
  fresh : ∀ f ∈ fresh (s.task p), s.ref f = 1 ∧ s.kind f = .none ∧ 0 < share s p f
  doing : Doing s p (s.task p)

structure Intact (s : State) : Prop where
  pages : ∀ pi, s.made pi = s.freed pi + (s.pipe pi).isSome.toNat
  pipes : ∀ pi x, s.pipe pi = some x → x.readopen = true ∨ x.writeopen = true
  ok : s.fault = false

/-- Every reference is accounted for, also in the middle of calls. -/
structure Inv (s : State) : Prop extends Intact s where
  refs : ∀ f, s.ref f = ∑ p, share s p f
  empty : ∀ f, s.ref f = 0 → s.kind f = .none
  res : ∀ r, recorded s r = tabled s r + ∑ p, owns s p r
  proper : ∀ p, Proper s p

theorem Proper.frame (h : Proper s q) (htask : t.task q = s.task q) (hofile : t.ofile q = s.ofile q)
    (hcwd : t.cwd q = s.cwd q) (hstatus : t.status q = s.status q)
    (hchild : ∀ c, s.status c = .used q → t.status c = s.status c ∧ t.ofile c = s.ofile c)
    (hfresh : ∀ f, s.ref f = 1 → s.kind f = .none → 0 < share s q f → t.ref f = 1 ∧ t.kind f = .none) :
    Proper t q := by
  have hshare : ∀ f, share t q f = share s q f := by
    intro f
    rw [share, share, htask, hofile]
  refine ⟨?_, ?_, ?_, ?_, ?_⟩
  · rw [hstatus, htask]
    exact h.quiet
  · rw [hstatus, hofile]
    exact h.gone
  · rw [hcwd, hstatus]
    exact h.home
  · intro f hf
    rw [htask] at hf
    obtain ⟨h₁, h₂, h₃⟩ := h.fresh f hf
    obtain ⟨k₁, k₂⟩ := hfresh f h₁ h₂ h₃
    exact ⟨k₁, k₂, by rw [hshare]; exact h₃⟩
  · rw [htask]
    have hd := h.doing
    generalize s.task q = k at hd
    cases k with
    | fork np i =>
      obtain ⟨h₁, h₂⟩ := hd
      rw [Doing, (hchild np h₁).1, (hchild np h₁).2]
      exact ⟨h₁, h₂⟩
    | pipeFiles | pipeFd | pipeFds | dup | exit =>
      simpa only [Doing, hofile] using hd
    | closing | openInode | openFile | openFd | pipealloc | pipeFile | pipeMade => trivial

theorem share_le (h : Inv s) (p : Fin NPROC) (f : Fin NFILE) : share s p f ≤ s.ref f := by
  rw [h.refs]
  exact Finset.single_le_sum (f := fun q => share s q f) (fun _ _ => Nat.zero_le _) (Finset.mem_univ p)

theorem alone (h : Inv s) (hpq : p ≠ q) (hf : s.ref f = 1) (hq : 0 < share s q f) : share s p f = 0 := by
  have hsum := h.refs f
  rw [← Finset.add_sum_erase Finset.univ _ (Finset.mem_univ q)] at hsum
  have := Finset.single_le_sum (f := fun q => share s q f) (fun _ _ => Nat.zero_le _)
    (Finset.mem_erase.mpr ⟨hpq, Finset.mem_univ p⟩)
  omega

theorem Inv.change (h : Inv s) (hp : ∀ q, s.status p ≠ .used q)
    (hsame : ∀ q, q ≠ p → t.task q = s.task q ∧ t.ofile q = s.ofile q ∧ t.cwd q = s.cwd q ∧ t.status q = s.status q)
    (hrefs : ∀ f, t.ref f + share s p f = s.ref f + share t p f)
    (hres : ∀ r, recorded t r + (tabled s r + owns s p r) = recorded s r + (tabled t r + owns t p r))
    (hfresh : ∀ f, s.ref f = 1 → s.kind f = .none → share s p f = 0 → t.ref f = 1 ∧ t.kind f = .none)
    (hempty : ∀ f, t.ref f = 0 → t.kind f = .none) (hintact : Intact t) (hproper : Proper t p) : Inv t := by
  refine ⟨hintact, ?_, hempty, ?_, ?_⟩
  · intro f
    have hsum := sum_change (p := p) (f := fun q => share s q f) (g := fun q => share t q f) (by
      intro q hq
      obtain ⟨h₁, h₂, -, -⟩ := hsame q hq
      simp only [share, h₁, h₂])
    have := hrefs f
    have := h.refs f
    omega
  · intro r
    have hsum := sum_change (p := p) (f := fun q => owns s q r) (g := fun q => owns t q r) (by
      intro q hq
      obtain ⟨h₁, -, h₃, -⟩ := hsame q hq
      simp only [owns, h₁, h₃])
    have := hres r
    have := h.res r
    omega
  · intro q
    by_cases hq : q = p
    · rw [hq]
      exact hproper
    · obtain ⟨h₁, h₂, h₃, h₄⟩ := hsame q hq
      refine (h.proper q).frame h₁ h₂ h₃ h₄ ?_ ?_
      · intro c hc
        have hcp : c ≠ p := by
          rintro rfl
          exact hp q hc
        exact ⟨(hsame c hcp).2.2.2, (hsame c hcp).2.1⟩
      · exact fun f hr hk hs => hfresh f hr hk (alone h (Ne.symm hq) hr hs)

end AdaptiveXv6.FileReferences
