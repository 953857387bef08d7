import AdaptiveXv6.Runs

namespace AdaptiveXv6.SleepLocks

open Runs Function

inductive Call
  | acquiresleep | holdingsleep | releasesleep
  deriving DecidableEq

/-- Where a process is in sleeplock.c: at the acquire() of a call, behind it with lk->lk, in sleep(), or back
from holdingsleep(). -/
inductive Place
  | user
  | entry (call : Call)
  | body (call : Call)
  | wakeup
  | asleep
  | checked (r : Bool)
  | panic
  deriving DecidableEq

def Place.holds : Place → Bool
  | .body _ | .wakeup => true
  | .user | .entry _ | .asleep | .checked _ | .panic => false

/-- A process that leaves sleep() acquires lk->lk and tests lk->locked again. -/
def Place.wake : Place → Place
  | .asleep => .entry .acquiresleep
  | x => x

/-- struct sleeplock. The field has is not in the code: the processes between lk->locked = 1 and lk->locked =
0. -/
structure Lock (P : Type) where
  locked : Bool
  pid : Int
  lk : Option P
  place : P → Place
  has : P → Bool

inductive Event (P : Type)
  | call (p : P) (call : Call)
  | exec (p : P)
  | kill (p : P)

namespace Lock

variable {P : Type} [DecidableEq P]

def init : Lock P := ⟨false, 0, none, fun _ => .user, fun _ => false⟩

def goto (s : Lock P) (p : P) (x : Place) : Lock P := { s with place := update s.place p x }

def release (s : Lock P) (p : P) (x : Place) : Lock P := { s.goto p x with lk := none }

/-- brelse() and iunlock() call releasesleep() after holdingsleep(), and panic where it returns 0; iput() calls
it with the lock that it acquired itself. -/
def step (pid : P → Int) (s : Lock P) : Event P → Option (Lock P)
  | .call p call =>
    if s.place p = .user ∧ (call = .releasesleep → s.has p) then some (s.goto p (.entry call)) else none
  | .exec p => match s.place p with
    | .entry call => if s.lk = none then some { s.goto p (.body call) with lk := some p } else none
    | .body .acquiresleep =>
      if s.locked then some (s.release p .asleep)
      else some { s.release p .user with locked := true, pid := pid p, has := update s.has p true }
    | .body .holdingsleep => some (s.release p (.checked (s.locked && s.pid == pid p)))
    | .body .releasesleep =>
      some { s.goto p .wakeup with locked := false, pid := 0, has := update s.has p false }
    | .wakeup => some { s with place := update (fun q => (s.place q).wake) p .user, lk := none }
    | .checked r => some (s.goto p (if r then .entry .releasesleep else .panic))
    | .user | .asleep | .panic => none
  | .kill p => if s.place p = .asleep then some (s.goto p (.entry .acquiresleep)) else none

end Lock

section Invariant

variable {P : Type} {pid : P → Int} {s : Lock P} {p : P} {x : Place} {o o' l l' : Option P}

def Placed (own : Prop) : Place → Prop
  | .entry .releasesleep | .body .releasesleep => own
  | .checked r => r = true ↔ own
  | .panic => ¬own
  | _ => True

/-- A process at a place, where o has the sleep lock and l has its spinlock. -/
structure At (o l : Option P) (p : P) (x : Place) : Prop where
  lk : x.holds = true ↔ l = some p
  placed : Placed (o = some p) x

theorem other_iff {q : P} (hq : q ≠ p) : some p = some q ↔ none = some q :=
  iff_of_false (fun heq => hq (Option.some.inj heq).symm) nofun

theorem free_iff : false = true ↔ none = some p := iff_of_false Bool.false_ne_true nofun

theorem At.other (h : At o l p x) (ho : o = some p ↔ o' = some p) (hl : l = some p ↔ l' = some p) :
    At o' l' p x := by
  refine ⟨h.lk.trans hl, ?_⟩
  rw [← propext ho]
  exact h.placed

theorem At.wake (h : At o l p x) : At o l p x.wake := by
  cases x with
  | asleep => exact ⟨h.lk, trivial⟩
  | _ => exact h

structure Owned (pid : P → Int) (s : Lock P) (o : Option P) : Prop where
  locked : s.locked = o.isSome
  pid : ∀ p, o = some p → s.pid = pid p
  has : ∀ p, s.has p = true ↔ o = some p
  places : ∀ p, At o s.lk p (s.place p)
  asleep : ∀ p, s.place p = .asleep → s.locked = true ∨ ∃ q, s.place q = .wakeup

namespace Owned

theorem init : Owned pid Lock.init none := by
  refine ⟨rfl, ?_, fun p => free_iff, fun p => ⟨free_iff, trivial⟩, ?_⟩
  · rintro p ⟨⟩
  · rintro p ⟨⟩

theorem check (h : Owned pid s o) (hpid : Injective pid) :
    (s.locked && s.pid == pid p) = true ↔ o = some p := by
  rw [Bool.and_eq_true, beq_iff_eq, h.locked]
  refine ⟨?_, ?_⟩
  · rintro ⟨hsome, hp⟩
    obtain ⟨q, rfl⟩ := Option.isSome_iff_exists.mp hsome
    rw [hpid ((h.pid q rfl).symm.trans hp)]
  · rintro rfl
    exact ⟨rfl, h.pid p rfl⟩

theorem lk_of_holds (h : Owned pid s o) (hp : (s.place p).holds = true) (q : P) (hq : q ≠ p) :
    s.lk = some q ↔ none = some q := by
  rw [(h.places p).lk.mp hp]
  exact other_iff hq

variable [DecidableEq P]

section Steps

variable (h : Owned pid s o)

include h

theorem places_update (ho : ∀ q, q ≠ p → (o = some q ↔ o' = some q))
    (hl : ∀ q, q ≠ p → (s.lk = some q ↔ l = some q)) (hx : At o' l p x) :
    ∀ q, At o' l q (update s.place p x q) := by
  refine (forall_update_iff s.place fun q y => At o' l q y).mpr ⟨hx, fun q hq => ?_⟩
  exact (h.places q).other (ho q hq) (hl q hq)

/-- A step of one process that leaves the fields of the sleep lock as they are. -/
theorem move (hx : At o l p x) (hl : ∀ q, q ≠ p → (s.lk = some q ↔ l = some q))
    (hwakeup : s.place p ≠ .wakeup) (hsleep : x = .asleep → s.locked = true) :
    Owned pid { s with place := update s.place p x, lk := l } o := by
  refine ⟨h.locked, h.pid, h.has, h.places_update (fun _ _ => Iff.rfl) hl hx, ?_⟩
  have hwaker : (∃ q, s.place q = .wakeup) → ∃ q, update s.place p x q = .wakeup := by
    rintro ⟨w, hw⟩
    have hwp : w ≠ p := by
      rintro rfl
      exact hwakeup hw
    exact ⟨w, (update_of_ne hwp ..).trans hw⟩
  refine (forall_update_iff s.place fun q y => y = .asleep → s.locked = true ∨ _).mpr ?_
  exact ⟨fun hx' => .inl (hsleep hx'), fun q _ hq => (h.asleep q hq).imp_right hwaker⟩

theorem goto {y : Place} (hp : s.place p = y) (hy : y ≠ .wakeup)
    (hholds : x.holds = y.holds) (hx : Placed (o = some p) x) (hsleep : x ≠ .asleep) :
    Owned pid (s.goto p x) o := by
  subst hp
  refine h.move ⟨?_, hx⟩ (fun _ _ => Iff.rfl) hy fun hx' => absurd hx' hsleep
  rw [hholds]
  exact (h.places p).lk

theorem release {call : Call} (hp : s.place p = .body call) (hfree : x.holds = false)
    (hx : Placed (o = some p) x) (hsleep : x = .asleep → s.locked = true) : Owned pid (s.release p x) o := by
  refine h.move ⟨?_, hx⟩ (h.lk_of_holds (by rw [hp]; rfl)) (by simp [hp]) hsleep
  rw [hfree]
  exact free_iff

theorem take (hp : s.place p = .body .acquiresleep) (hfree : s.locked = false) :
    Owned pid { s.release p .user with locked := true, pid := pid p, has := update s.has p true } (some p) := by
  obtain rfl : o = none := by
    cases o with
    | none => rfl
    | some q =>
      rw [h.locked] at hfree
      cases hfree
  have hother : ∀ q, q ≠ p → (none = some q ↔ some p = some q) := fun q hq => (other_iff hq).symm
  have hlk := h.lk_of_holds (p := p) (by rw [hp]; rfl)
  refine ⟨rfl, ?_, ?_, h.places_update hother hlk ⟨free_iff, trivial⟩, fun _ _ => .inl rfl⟩
  · rintro q ⟨⟩
    rfl
  · refine (forall_update_iff s.has fun q b => b = true ↔ some p = some q).mpr ⟨iff_of_true rfl rfl, ?_⟩
    exact fun q hq => (h.has q).trans (hother q hq)

theorem clear (hp : s.place p = .body .releasesleep) :
    Owned pid { s.goto p .wakeup with locked := false, pid := 0, has := update s.has p false } none := by
  obtain ⟨hlk, hplaced⟩ := h.places p
  rw [hp] at hlk hplaced
  obtain rfl : o = some p := hplaced
  have hplaces := h.places_update (x := .wakeup) (fun _ => other_iff) (fun _ _ => Iff.rfl) ⟨hlk, trivial⟩
  refine ⟨rfl, ?_, ?_, hplaces, fun _ _ => .inr ⟨p, update_self ..⟩⟩
  · rintro q ⟨⟩
  · refine (forall_update_iff s.has fun q b => b = true ↔ none = some q).mpr ⟨free_iff, ?_⟩
    exact fun q hq => (h.has q).trans (other_iff hq)

theorem wakeup (hp : s.place p = .wakeup) :
    Owned pid { s with place := update (fun q => (s.place q).wake) p .user, lk := none } o := by
  refine ⟨h.locked, h.pid, h.has, ?_, ?_⟩
  · refine (forall_update_iff (fun q => (s.place q).wake) (At o none)).mpr ⟨⟨free_iff, trivial⟩, fun q hq => ?_⟩
    exact (h.places q).wake.other Iff.rfl (h.lk_of_holds (by rw [hp]; rfl) q hq)
  · refine (forall_update_iff (fun q => (s.place q).wake) fun q y => y = .asleep → _).mpr ⟨nofun, ?_⟩
    intro q _ hq
    cases hx : s.place q <;> rw [hx] at hq <;> cases hq

theorem step (hpid : Injective pid) {e : Event P} {t : Lock P}
    (ht : s.step pid e = some t) : ∃ o', Owned pid t o' := by
  cases e with
  | call p call =>
    obtain ⟨⟨hp, hcall⟩, ht⟩ := Option.ite_none_right_eq_some.mp ht
    cases ht
    refine ⟨o, h.goto hp (by simp) rfl ?_ (by simp)⟩
    cases call with
    | releasesleep => exact (h.has p).mp (hcall rfl)
    | _ => trivial
  | kill p =>
    obtain ⟨hp, ht⟩ := Option.ite_none_right_eq_some.mp ht
    cases ht
    exact ⟨o, h.goto hp (by simp) rfl trivial (by simp)⟩
  | exec p =>
    have hplaced := (h.places p).placed
    simp only [Lock.step] at ht
    split at ht
    · rename_i call hp
      obtain ⟨hfree, ht⟩ := Option.ite_none_right_eq_some.mp ht
      cases ht
      rw [hp] at hplaced
      refine ⟨o, h.move ⟨iff_of_true rfl rfl, ?_⟩ (fun q hq => ?_) (by simp [hp]) nofun⟩
      · cases call with
        | releasesleep => exact hplaced
        | _ => trivial
      · rw [hfree]
        exact (other_iff hq).symm
    · rename_i hp
      cases hlocked : s.locked with
      | true =>
        rw [hlocked, if_pos rfl] at ht
        cases ht
        exact ⟨o, h.release hp rfl trivial fun _ => hlocked⟩
      | false =>
        rw [hlocked, if_neg Bool.false_ne_true] at ht
        cases ht
        exact ⟨some p, h.take hp hlocked⟩
    · rename_i hp
      cases ht
      exact ⟨o, h.release hp rfl (h.check hpid) nofun⟩
    · rename_i hp
      cases ht
      exact ⟨none, h.clear hp⟩
    · rename_i hp
      cases ht
      exact ⟨o, h.wakeup hp⟩
    · rename_i r hp
      cases ht
      rw [hp] at hplaced
      cases r with
      | false => exact ⟨o, h.goto hp (by simp) rfl (fun ho => Bool.false_ne_true (hplaced.mpr ho)) (by simp)⟩
      | true => exact ⟨o, h.goto hp (by simp) rfl (hplaced.mp rfl) (by simp)⟩
    all_goals cases ht

end Steps

theorem run (hpid : Injective pid) (r : Run (Lock.step pid) Lock.init) (k : Nat) :
    ∃ o, Owned pid (r.state k) o := by
  apply r.always (I := fun s => ∃ o, Owned pid s o) ⟨none, .init⟩
  rintro s e t ⟨o, h⟩ ht
  exact h.step hpid ht

end Owned

end Invariant

variable {P : Type} [DecidableEq P] {pid : P → Int}

/-- One process at most has the lock, and holdingsleep() says whether the caller has it. -/
theorem sleep_lock_exclusive (hpid : Injective pid) (r : Run (Lock.step pid) Lock.init) (k : Nat) :
    (∀ p q, (r.state k).has p = true → (r.state k).has q = true → p = q) ∧
    ((r.state k).locked = true ↔ ∃ p, (r.state k).has p = true) ∧
    (∀ p b, (r.state k).place p = .checked b → b = (r.state k).has p) ∧
    ∀ p, (r.state k).place p = .panic → (r.state k).has p = false := by
  obtain ⟨o, h⟩ := Owned.run hpid r k
  refine ⟨fun p q hp hq => ?_, ?_, fun p b hp => ?_, fun p hp => ?_⟩
  · exact Option.some.inj (((h.has p).mp hp).symm.trans ((h.has q).mp hq))
  · rw [h.locked, Option.isSome_iff_exists]
    exact exists_congr fun p => (h.has p).symm
  · have hplaced := (h.places p).placed
    rw [hp] at hplaced
    exact Bool.eq_iff_iff.mpr (hplaced.trans (h.has p).symm)
  · have hplaced := (h.places p).placed
    rw [hp] at hplaced
    exact Bool.not_eq_true _ ▸ fun hhas => hplaced ((h.has p).mp hhas)

def number (p : Fin 2) : Int := p.val

theorem number_injective : Injective number := fun _ _ h => Fin.ext (Int.ofNat.inj h)

/-- The second process calls brelse() while the first has the lock. -/
theorem sleep_lock_exclusive_panic : ∃ (r : Run (Lock.step number) Lock.init) (k : Nat),
    (r.state k).place 1 = .panic ∧ (r.state k).has 1 = false := by
  have hok : (exec (Lock.step number) Lock.init [.call 0 .acquiresleep, .exec 0, .exec 0, .call 1 .holdingsleep,
      .exec 1, .exec 1, .exec 1]).any fun s => decide (s.place 1 = .panic) := by decide
  obtain ⟨r, k, hk⟩ := exists_reached_script hok
  have hp := of_decide_eq_true hk
  exact ⟨r, k, hp, (sleep_lock_exclusive number_injective r k).2.2.2 1 hp⟩

/-- With lk->lk free nobody sleeps on a lock that is not taken. -/
theorem sleep_lock_wakeup (hpid : Injective pid) (r : Run (Lock.step pid) Lock.init) (k : Nat)
    (hlk : (r.state k).lk = none) (p : P) (hp : (r.state k).place p = .asleep) :
    ∃ q, (r.state k).has q = true ∧ (r.state k).pid = pid q := by
  obtain ⟨o, h⟩ := Owned.run hpid r k
  obtain hlocked | ⟨q, hq⟩ := h.asleep p hp
  · rw [h.locked] at hlocked
    obtain ⟨q, rfl⟩ := Option.isSome_iff_exists.mp hlocked
    exact ⟨q, (h.has q).mpr rfl, h.pid q rfl⟩
  · have hheld := (h.places q).lk.mp (by rw [hq]; rfl)
    rw [hlk] at hheld
    cases hheld

/-- The second process finds the lock taken and goes to sleep. -/
theorem sleep_lock_wakeup_contended : ∃ (r : Run (Lock.step number) Lock.init) (k : Nat),
    (r.state k).lk = none ∧ (r.state k).place 1 = .asleep ∧
      ∃ q, (r.state k).has q = true ∧ (r.state k).pid = number q := by
  have hok : (exec (Lock.step number) Lock.init [.call 0 .acquiresleep, .exec 0, .exec 0, .call 1 .acquiresleep,
      .exec 1, .exec 1]).any fun s => decide (s.lk = none ∧ s.place 1 = .asleep) := by decide
  obtain ⟨r, k, hk⟩ := exists_reached_script hok
  obtain ⟨hlk, hp⟩ := of_decide_eq_true hk
  exact ⟨r, k, hlk, hp, sleep_lock_wakeup number_injective r k hlk 1 hp⟩

end AdaptiveXv6.SleepLocks
