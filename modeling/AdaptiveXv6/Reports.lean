import Mathlib.Data.List.Count
import Mathlib.Algebra.BigOperators.Group.List.Basic
import Mathlib.Algebra.GroupWithZero.Nat
import AdaptiveXv6.Disclosure

namespace AdaptiveXv6.Reports

open MemLayout Words Process Bytes CopyOut Telemetry Disclosure

variable {writable : Nat → Bool} {dst count : Nat} {max : Int} {e : Entry} {es l : List Entry} {m m' stack : Nat → Byte}

/-- The processes of a part of the table. -/
def active (es : List Entry) : List Entry := es.filter fun e => e.proc.state ≠ .unused

theorem active_cons_unused (h : e.proc.state = .unused) : active (e :: es) = active es := by simp [active, h]

theorem active_cons (h : e.proc.state ≠ .unused) : active (e :: es) = e :: active es := by simp [active, h]

section Writes

/-- A memory with the entries l from number count on in a buffer at dst, and otherwise as before. What is not
assigned is from some kernel stack. -/
structure Wrote (dst count : Nat) (l : List Entry) (m m' : Nat → Byte) : Prop where
  inside : ∀ i e, l[i]? = some e → ∃ k, ∀ o, o < 144 →
    m' (dst + (count + i) * 144 + o) = stores k (procinfo e) o
  outside : ∀ a, ¬(dst + count * 144 ≤ a ∧ a < dst + (count + l.length) * 144) → m' a = m a

theorem wrote_nil (dst count : Nat) (m : Nat → Byte) : Wrote dst count [] m m :=
  ⟨fun i e h => (by cases h), fun _ _ => rfl⟩

theorem Wrote.cons {k : Nat → Byte}
    (h : Wrote dst (count + 1) l (store m (dst + count * 144, image (stores k (procinfo e)) 144)) m') :
    Wrote dst count (e :: l) m m' := by
  refine ⟨?_, ?_⟩
  · intro i e' he'
    cases i with
    | zero =>
      obtain rfl : e = e' := by simpa using he'
      refine ⟨k, fun o ho => ?_⟩
      rw [h.outside _ (by omega), store_image, if_pos (by omega)]
      congr 1
      omega
    | succ i =>
      obtain ⟨k', hk'⟩ := h.inside i e' (by simpa using he')
      refine ⟨k', fun o ho => ?_⟩
      rw [← hk' o ho]
      congr 3
      omega
  · intro a ha
    rw [List.length_cons] at ha
    have hlen : count + (l.length + 1) = count + 1 + l.length := by omega
    rw [hlen] at ha
    rw [h.outside a (by omega), store_image, if_neg (by omega)]

theorem Accepts.mono {a n b k : Nat} (h : Accepts writable a n) (hab : a ≤ b) (hk : b + k ≤ a + n) : Accepts writable b k :=
  fun x hx hx' => h x (by omega) (by omega)

theorem u64_of_accepts {a : Nat} (h : Accepts writable a 144) : u64 a = a := by
  have hva := (h a (Nat.le_refl a) (by omega)).1
  refine u64_of_lt ?_
  have := Nat.div_add_mod a PGSIZE
  have := Nat.mod_lt a (show 0 < PGSIZE by decide)
  rw [Nat.mul_comm] at hva
  have : MAXVA + PGSIZE < 2 ^ 64 := by decide
  omega

theorem procStatsFrom_spec (m : Nat → Byte) (hcount : 0 ≤ max)
    (hok : Accepts writable (dst + count * 144)
      (((active es).take (max.toNat - count)).length * 144)) :
    (procStatsFrom writable dst max es count stack).2 = (count + (active es).length : Nat) ∧
      Wrote dst count ((active es).take (max.toNat - count)) m
        (stores m (procStatsFrom writable dst max es count stack).1) := by
  induction es generalizing count m stack with
  | nil => exact ⟨rfl, by rw [show (active [] : List Entry) = [] from rfl, List.take_nil]; exact wrote_nil dst count m⟩
  | cons e es ih =>
    rw [procStatsFrom]
    by_cases hs : e.proc.state ≠ .unused
    · rw [if_pos hs]
      rw [active_cons hs] at hok ⊢
      have hlen : count + (e :: active es).length = count + 1 + (active es).length := by
        rw [List.length_cons]
        omega
      rw [hlen]
      by_cases hlt : (count : Int) < max
      · rw [if_pos hlt]
        have htake : max.toNat - count = max.toNat - (count + 1) + 1 := by omega
        rw [htake, List.take_succ_cons, List.length_cons] at hok
        rw [htake, List.take_succ_cons]
        have hfirst : Accepts writable (dst + count * 144) 144 :=
          Accepts.mono hok (Nat.le_refl _) (by omega)
        have hrest : Accepts writable (dst + (count + 1) * 144)
            (((active es).take (max.toNat - (count + 1))).length * 144) :=
          Accepts.mono hok (by omega) (by omega)
        have hsrc : Accepts writable (dst + count * 144) (image (stores stack (procinfo e)) 144).length := by
          rw [length_image]
          exact hfirst
        obtain ⟨hret, hmem⟩ := copyout_stores hsrc m
        obtain ⟨hcode, hwrote⟩ := @ih (count + 1) (stores stack (procinfo e))
          (store m (dst + count * 144, image (stores stack (procinfo e)) 144)) hrest
        dsimp only [procinfoSize]
        rw [u64_of_accepts hfirst, proceed, if_neg (by rw [hret]; decide)]
        refine ⟨hcode, ?_⟩
        rw [stores_append, hmem]
        exact hwrote.cons
      · rw [if_neg hlt]
        have hnone : max.toNat - count = 0 := by omega
        have hnone' : max.toNat - (count + 1) = 0 := by omega
        have hih := @ih (count + 1) stack m
          (by rw [hnone', List.take_zero]; intro a ha ha'; simp at ha'; omega)
        rw [hnone', List.take_zero] at hih
        rw [hnone, List.take_zero]
        refine ⟨hih.1, ⟨fun i e h => (by cases h), fun a ha => hih.2.outside a ?_⟩⟩
        rw [List.length_nil] at ha ⊢
        omega
    · rw [if_neg hs]
      rw [active_cons_unused (not_not.mp hs)] at hok ⊢
      exact ih m hok

end Writes

section Reads

def load (m : Nat → Byte) (a : Nat) : Nat → Nat
  | 0 => 0
  | k + 1 => (m a).toNat + 256 * load m (a + 1) k

theorem load_le {k x a : Nat} (h : ∀ i b, (le k x)[i]? = some b → m (a + i) = b) : load m a k = x % 256 ^ k := by
  induction k generalizing x a with
  | zero => rw [load, Nat.pow_zero, Nat.mod_one]
  | succ k ih =>
    have hfirst := h 0 (BitVec.ofNat 8 x) rfl
    have hrest := ih (x := x / 256) (a := a + 1) fun i b hb => by
      rw [Nat.add_assoc, Nat.add_comm 1 i]
      exact h (i + 1) b hb
    have hpow : 256 ^ (k + 1) = 256 * 256 ^ k := Nat.pow_succ'
    rw [load, hrest, show m a = BitVec.ofNat 8 x from hfirst, hpow, Nat.mod_mul, BitVec.toNat_ofNat]

theorem stores_of_mem {ws : List (Nat × List Byte)} {w : Nat × List Byte}
    (hd : ws.Pairwise fun u v => u.1 + u.2.length ≤ v.1) (hw : w ∈ ws) {i : Nat} {b : Byte} (hi : w.2[i]? = some b)
    (k : Nat → Byte) : stores k ws (w.1 + i) = b := by
  induction ws generalizing k with
  | nil => cases hw
  | cons u ws ih =>
    obtain ⟨hu, hws⟩ := List.pairwise_cons.mp hd
    rw [stores]
    rcases List.mem_cons.mp hw with rfl | hw
    · have hlt : i < w.2.length := (List.getElem?_eq_some_iff.mp hi).1
      rw [stores_uncovered, store, if_pos (by omega), Nat.add_sub_cancel_left, hi]
      · rfl
      · rintro ⟨v, hv, hin⟩
        have := hu v hv
        have := hin.1
        omega
    · exact ih hws hw _

theorem procinfo_disjoint (e : Entry) : (procinfo e).Pairwise fun u v => u.1 + u.2.length ≤ v.1 := by
  have hname := length_safestrcpy_le (List.ofFn e.name)
  rw [procinfo]
  generalize safestrcpy (List.ofFn e.name) 16 = name at hname
  simp only [List.pairwise_cons, List.mem_cons, List.not_mem_nil, or_false, forall_eq_or_imp, forall_eq, length_le,
    List.Pairwise.nil, and_true, false_imp_iff, implies_true]
  omega

structure Reported where
  state : Nat
  procType : Nat
  estBurst : Nat
  healthStatus : Nat
  healingActions : Nat

def reported (m : Nat → Byte) (a : Nat) : Reported where
  state := load m (a + 24) 4
  procType := load m (a + 92) 4
  estBurst := load m (a + 88) 4
  healthStatus := load m (a + 124) 4
  healingActions := load m (a + 128) 4

def Reported.of (p : Proc) : Reported :=
  ⟨stateCode p.state, typeCode p.procType, p.estBurst % 2 ^ 32, healthCode p.healthStatus, p.healingActions % 2 ^ 32⟩

theorem reported_entry {a : Nat} {k : Nat → Byte} (h : ∀ o, o < procinfoSize → m (a + o) = stores k (procinfo e) o) :
    reported m a = .of e.proc := by
  have hfield : ∀ o x, (o, le 4 x) ∈ procinfo e → o + 4 ≤ procinfoSize → load m (a + o) 4 = x % 2 ^ 32 := by
    intro o x hmem ho
    refine load_le fun i b hb => ?_
    have hlt : i < 4 := by simpa using (List.getElem?_eq_some_iff.mp hb).1
    rw [Nat.add_assoc, h (o + i) (by omega)]
    exact stores_of_mem (procinfo_disjoint e) hmem hb k
  have hstate : stateCode e.proc.state % 2 ^ 32 = stateCode e.proc.state := by cases e.proc.state <;> rfl
  have htype : typeCode e.proc.procType % 2 ^ 32 = typeCode e.proc.procType := by cases e.proc.procType <;> rfl
  have hhealth : healthCode e.proc.healthStatus % 2 ^ 32 = healthCode e.proc.healthStatus := by
    cases e.proc.healthStatus <;> rfl
  rw [reported, Reported.of, hfield 24 (stateCode e.proc.state) (by simp [procinfo]) (by decide),
    hfield 92 (typeCode e.proc.procType) (by simp [procinfo]) (by decide),
    hfield 88 e.proc.estBurst (by simp [procinfo]) (by decide),
    hfield 124 (healthCode e.proc.healthStatus) (by simp [procinfo]) (by decide),
    hfield 128 e.proc.healingActions (by simp [procinfo]) (by decide), hstate, htype, hhealth]

end Reads

section Summaries

/-- The counts by state, class and health, the percentages of the classes, the mean estimate rounded down, and
the sum of the healing actions. -/
def summary (l : List Reported) : List (Nat × List Byte) :=
  let percent (k : Nat) : Nat := if l.length > 0 then k * 100 / l.length else 0
  [(0, le 4 (l.countP fun x => x.state = 3)),
   (4, le 4 (l.countP fun x => x.state = 4)),
   (8, le 4 (l.countP fun x => x.state = 2)),
   (12, le 4 l.length),
   (16, le 4 (if l.length > 0 then u32 (l.map (·.estBurst)).sum / l.length else 0)),
   (20, le 4 (percent (l.countP fun x => x.procType = 0))),
   (24, le 4 (percent (l.countP fun x => x.procType = 1))),
   (28, le 4 (percent (l.countP fun x => x.procType = 2))),
   (32, le 4 (l.countP fun x => x.healthStatus = 0)),
   (36, le 4 (l.countP fun x => x.healthStatus = 1)),
   (40, le 4 (l.countP fun x => x.healthStatus = 2)),
   (44, le 4 (u32 (l.map (·.healingActions)).sum))]

structure Tallied (c : Counts) (l : List Reported) (c' : Counts) : Prop where
  runnable : c'.runnable = c.runnable + l.countP fun x => x.state = 3
  running : c'.running = c.running + l.countP fun x => x.state = 4
  sleeping : c'.sleeping = c.sleeping + l.countP fun x => x.state = 2
  total : c'.total = c.total + l.length
  interactive : c'.interactive = c.interactive + l.countP fun x => x.procType = 0
  cpuBound : c'.cpuBound = c.cpuBound + l.countP fun x => x.procType = 1
  mixed : c'.mixed = c.mixed + l.countP fun x => x.procType = 2
  healthy : c'.healthy = c.healthy + l.countP fun x => x.healthStatus = 0
  warning : c'.warning = c.warning + l.countP fun x => x.healthStatus = 1
  critical : c'.critical = c.critical + l.countP fun x => x.healthStatus = 2
  heals : u32OfInt c'.totalHeals = u32 (u32OfInt c.totalHeals + (l.map (·.healingActions)).sum)
  burst : c.totalBurst < 2 ^ 32 → c'.totalBurst = u32 (c.totalBurst + (l.map (·.estBurst)).sum)

theorem u32OfInt_emod (z : Int) : (u32OfInt z : Int) = z % 2 ^ 32 := by
  rw [u32OfInt, BitVec.toNat_ofInt]
  exact Int.toNat_of_nonneg (Int.emod_nonneg _ (by decide))

theorem u32OfInt_i32 (z : Int) : u32OfInt (i32 z) = u32OfInt z := by
  rw [u32OfInt, i32, BitVec.ofInt_toInt]
  rfl

theorem tallied_nil (c : Counts) : Tallied c [] c := by
  have hheals : u32OfInt c.totalHeals < 2 ^ 32 := (BitVec.ofInt 32 c.totalHeals).isLt
  refine ⟨rfl, rfl, rfl, rfl, rfl, rfl, rfl, rfl, rfl, rfl, ?_, fun h => ?_⟩
  · rw [List.map_nil, List.sum_nil, Nat.add_zero, u32_of_lt hheals]
  · rw [List.map_nil, List.sum_nil, Nat.add_zero, u32_of_lt h]

theorem state_code (p : Proc) : (stateCode p.state = 3 ↔ p.state = .runnable) ∧
    (stateCode p.state = 4 ↔ p.state = .running) ∧ (stateCode p.state = 2 ↔ p.state = .sleeping) := by
  cases p.state <;> simp [stateCode]

theorem type_code (p : Proc) : (typeCode p.procType = 0 ↔ p.procType = .interactive) ∧
    (typeCode p.procType = 1 ↔ p.procType = .cpuBound) ∧ (typeCode p.procType = 2 ↔ p.procType = .mixed) := by
  cases p.procType <;> simp [typeCode]

theorem health_code (p : Proc) : (healthCode p.healthStatus = 0 ↔ p.healthStatus = .normal) ∧
    (healthCode p.healthStatus = 1 ↔ p.healthStatus = .warning) ∧
    (healthCode p.healthStatus = 2 ↔ p.healthStatus = .critical) := by
  cases p.healthStatus <;> simp [healthCode]

theorem Tallied.cons {c c' : Counts} {p : Proc} {l : List Reported} (hp : p.state ≠ .unused)
    (h : Tallied (c.add p) l c') : Tallied c (.of p :: l) c' := by
  have hadd : c.add p = _ := if_pos hp
  obtain ⟨hs₃, hs₄, hs₂⟩ := state_code p
  obtain ⟨ht₀, ht₁, ht₂⟩ := type_code p
  obtain ⟨hh₀, hh₁, hh₂⟩ := health_code p
  rw [hadd] at h
  refine ⟨?_, ?_, ?_, ?_, ?_, ?_, ?_, ?_, ?_, ?_, ?_, ?_⟩
  · rw [h.runnable, List.countP_cons]; simp only [Reported.of, decide_eq_true_eq, hs₃]; omega
  · rw [h.running, List.countP_cons]; simp only [Reported.of, decide_eq_true_eq, hs₄]; omega
  · rw [h.sleeping, List.countP_cons]; simp only [Reported.of, decide_eq_true_eq, hs₂]; omega
  · rw [h.total, List.length_cons]; dsimp only; omega
  · rw [h.interactive, List.countP_cons]; simp only [Reported.of, decide_eq_true_eq, ht₀]; omega
  · rw [h.cpuBound, List.countP_cons]; simp only [Reported.of, decide_eq_true_eq, ht₁]; omega
  · rw [h.mixed, List.countP_cons]; simp only [Reported.of, decide_eq_true_eq, ht₂]; omega
  · rw [h.healthy, List.countP_cons]; simp only [Reported.of, decide_eq_true_eq, hh₀]; omega
  · rw [h.warning, List.countP_cons]; simp only [Reported.of, decide_eq_true_eq, hh₁]; omega
  · rw [h.critical, List.countP_cons]; simp only [Reported.of, decide_eq_true_eq, hh₂]; omega
  · have hsum := u32OfInt_emod (c.totalHeals + p.healingActions)
    have hold := u32OfInt_emod c.totalHeals
    rw [h.heals, List.map_cons, List.sum_cons]
    simp only [Reported.of, u32OfInt_i32, u32]
    omega
  · intro hc
    rw [h.burst (Nat.mod_lt _ (by decide)), List.map_cons, List.sum_cons]
    simp only [Reported.of, u32]
    omega

theorem tallied_foldl (c : Counts) (es : List Entry) :
    Tallied c ((active es).map fun e => .of e.proc) (es.foldl (fun c e => c.add e.proc) c) := by
  induction es generalizing c with
  | nil => exact tallied_nil c
  | cons e es ih =>
    rw [List.foldl_cons]
    by_cases hs : e.proc.state = .unused
    · rw [active_cons_unused hs, show c.add e.proc = c from if_neg (not_not.mpr hs)]
      exact ih c
    · rw [active_cons hs, List.map_cons]
      exact (ih _).cons hs

theorem getWorkloadStats_eq (table : Slot → Entry) :
    getWorkloadStats table = summary ((active (List.ofFn table)).map fun e => .of e.proc) := by
  have h := tallied_foldl .zero (List.ofFn table)
  have hburst := h.burst (by decide)
  rw [getWorkloadStats, workloadInfo, summary, h.runnable, h.running, h.sleeping, h.total, h.interactive, h.cpuBound,
    h.mixed, h.healthy, h.warning, h.critical, h.heals, hburst]
  simp only [Counts.zero, Nat.zero_add, show u32OfInt 0 = 0 from rfl]

theorem countP_types (l : List Entry) :
    (l.map fun e => Reported.of e.proc).countP (fun x => x.procType = 0) +
      (l.map fun e => Reported.of e.proc).countP (fun x => x.procType = 1) +
      (l.map fun e => Reported.of e.proc).countP (fun x => x.procType = 2) = l.length ∧
    (l.map fun e => Reported.of e.proc).countP (fun x => x.healthStatus = 0) +
      (l.map fun e => Reported.of e.proc).countP (fun x => x.healthStatus = 1) +
      (l.map fun e => Reported.of e.proc).countP (fun x => x.healthStatus = 2) = l.length := by
  induction l with
  | nil => exact ⟨rfl, rfl⟩
  | cons e l ih =>
    obtain ⟨htypes, hhealth⟩ := ih
    simp only [List.map_cons, List.countP_cons, List.length_cons]
    have htype : ((if decide (typeCode e.proc.procType = 0) = true then 1 else 0) +
        (if decide (typeCode e.proc.procType = 1) = true then 1 else 0) +
        if decide (typeCode e.proc.procType = 2) = true then 1 else 0) = 1 := by
      cases e.proc.procType <;> rfl
    have hstatus : ((if decide (healthCode e.proc.healthStatus = 0) = true then 1 else 0) +
        (if decide (healthCode e.proc.healthStatus = 1) = true then 1 else 0) +
        if decide (healthCode e.proc.healthStatus = 2) = true then 1 else 0) = 1 := by
      cases e.proc.healthStatus <;> rfl
    refine ⟨?_, ?_⟩
    · rw [show (Reported.of e.proc).procType = typeCode e.proc.procType from rfl]
      omega
    · rw [show (Reported.of e.proc).healthStatus = healthCode e.proc.healthStatus from rfl]
      omega

theorem percents {a b c n : Nat} (hn : 0 < n) (h : a + b + c = n) :
    98 ≤ a * 100 / n + b * 100 / n + c * 100 / n ∧ a * 100 / n + b * 100 / n + c * 100 / n ≤ 100 := by
  have ha := Nat.div_add_mod (a * 100) n
  have hb := Nat.div_add_mod (b * 100) n
  have hc := Nat.div_add_mod (c * 100) n
  have ha' := Nat.mod_lt (a * 100) hn
  have hb' := Nat.mod_lt (b * 100) hn
  have hc' := Nat.mod_lt (c * 100) hn
  generalize a * 100 / n = x at *
  generalize b * 100 / n = y at *
  generalize c * 100 / n = z at *
  have hsum : n * (x + y + z) ≤ n * 100 ∧ n * 97 < n * (x + y + z) := by
    rw [Nat.mul_add, Nat.mul_add]
    omega
  exact ⟨Nat.lt_of_mul_lt_mul_left hsum.2, Nat.le_of_mul_le_mul_left hsum.1 hn⟩

end Summaries

def hog : Entry :=
  ⟨{ procinit with state := .runnable, pid := 2, procType := .cpuBound, estBurst := 9, healthStatus := .warning }, 0,
    fun _ => 0⟩

def sleeper : Entry :=
  ⟨{ procinit with state := .sleeping, pid := 5, procType := .mixed, healingActions := 2 }, 0, fun _ => 0⟩

/-- Three processes with free slots between them. -/
def gaps (p : Slot) : Entry :=
  if p.val = 0 then initEntry else if p.val = 3 then hog else if p.val = 63 then sleeper else ⟨procinit, 0, fun _ => 0⟩

/-- What get_proc_stats() puts into a writable buffer, and what get_workload_stats() makes of the same table.
-/
theorem telemetry_agrees (writable : Nat → Bool) (table : Slot → Entry) (stack m : Nat → Byte) (dst : Nat)
    (hactive : active (List.ofFn table) ≠ []) :
    (∀ max : Int, 0 < max → Accepts writable dst (min max.toNat (active (List.ofFn table)).length * 144) →
      (getProcStats writable dst max table stack).2 = (active (List.ofFn table)).length ∧
      Wrote dst 0 ((active (List.ofFn table)).take max.toNat) m
        (stores m (getProcStats writable dst max table stack).1)) ∧
    (Accepts writable dst ((active (List.ofFn table)).length * 144) →
      getWorkloadStats table = summary ((List.range (active (List.ofFn table)).length).map fun i =>
        reported (stores m (getProcStats writable dst NPROC table stack).1) (dst + i * 144))) ∧
    ∃ n interactive cpuBound mixed healthy warning critical, n = (active (List.ofFn table)).length ∧
      (12, le 4 n) ∈ getWorkloadStats table ∧
      (20, le 4 interactive) ∈ getWorkloadStats table ∧ (24, le 4 cpuBound) ∈ getWorkloadStats table ∧
      (28, le 4 mixed) ∈ getWorkloadStats table ∧ (32, le 4 healthy) ∈ getWorkloadStats table ∧
      (36, le 4 warning) ∈ getWorkloadStats table ∧ (40, le 4 critical) ∈ getWorkloadStats table ∧
      healthy + warning + critical = n ∧ 98 ≤ interactive + cpuBound + mixed ∧ interactive + cpuBound + mixed ≤ 100 := by
  have hwrites : ∀ max : Int, 0 < max →
      Accepts writable dst (min max.toNat (active (List.ofFn table)).length * 144) →
      (getProcStats writable dst max table stack).2 = (active (List.ofFn table)).length ∧
      Wrote dst 0 ((active (List.ofFn table)).take max.toNat) m
        (stores m (getProcStats writable dst max table stack).1) := by
    intro max hmax hok
    have hroom : Accepts writable (dst + 0 * 144) (((active (List.ofFn table)).take (max.toNat - 0)).length * 144) := by
      rw [Nat.zero_mul, Nat.add_zero, List.length_take, Nat.sub_zero]
      exact hok
    obtain ⟨hret, hmem⟩ := procStatsFrom_spec m hmax.le hroom
    rw [Nat.zero_add] at hret
    exact ⟨hret, hmem⟩
  have hlen : (active (List.ofFn table)).length ≤ NPROC := by
    have h := List.length_filter_le (fun e : Entry => decide (e.proc.state ≠ .unused)) (List.ofFn table)
    rwa [List.length_ofFn] at h
  refine ⟨hwrites, fun hok => ?_, ?_⟩
  · have hmin : min ((NPROC : Nat) : Int).toNat (active (List.ofFn table)).length = (active (List.ofFn table)).length := by
      rw [Int.toNat_natCast]
      exact Nat.min_eq_right hlen
    obtain ⟨-, hwrote⟩ := hwrites (NPROC : Nat) (by decide) (by rw [hmin]; exact hok)
    rw [getWorkloadStats_eq]
    congr 1
    refine List.ext_getElem (by simp) fun i hi hi' => ?_
    rw [List.length_map] at hi
    rw [List.getElem_map, List.getElem_map, List.getElem_range]
    obtain ⟨k, hk⟩ := hwrote.inside i ((active (List.ofFn table))[i]) (by
      rw [List.take_of_length_le (by rw [Int.toNat_natCast]; exact hlen), List.getElem?_eq_getElem hi])
    rw [Nat.zero_add] at hk
    exact (reported_entry hk).symm
  · obtain ⟨htypes, hhealth⟩ := countP_types (active (List.ofFn table))
    have hpos : 0 < (active (List.ofFn table)).length := List.length_pos_iff.mpr hactive
    have hpercent := percents hpos htypes
    rw [getWorkloadStats_eq, summary]
    simp only [List.length_map, if_pos hpos]
    exact ⟨_, _, _, _, _, _, _, rfl, List.mem_of_getElem? (i := 3) rfl, List.mem_of_getElem? (i := 5) rfl,
      List.mem_of_getElem? (i := 6) rfl, List.mem_of_getElem? (i := 7) rfl, List.mem_of_getElem? (i := 8) rfl,
      List.mem_of_getElem? (i := 9) rfl, List.mem_of_getElem? (i := 10) rfl, hhealth, hpercent.1, hpercent.2⟩

theorem telemetry_agrees_init : ∃ stack m : Nat → Byte,
    (getProcStats (fun _ => true) 4096 2 gaps stack).2 = 3 ∧
      Wrote 4096 0 [initEntry, hog] m (stores m (getProcStats (fun _ => true) 4096 2 gaps stack).1) ∧
      getWorkloadStats gaps = summary ((List.range 3).map fun i =>
        reported (stores m (getProcStats (fun _ => true) 4096 NPROC gaps stack).1) (4096 + i * 144)) := by
  have hactive : active (List.ofFn gaps) = [initEntry, hog, sleeper] := rfl
  obtain ⟨hwrote, hstats, -⟩ := telemetry_agrees (fun _ => true) gaps (fun _ => 0) (fun _ => 0) 4096
    (by rw [hactive]; exact List.cons_ne_nil _ _)
  have hok : Accepts (fun _ => true) 4096 (3 * 144) := by
    intro a _ ha
    refine ⟨?_, rfl⟩
    have := Nat.div_mul_le_self a 4096
    change a / 4096 * 4096 < 2 ^ 38
    omega
  rw [hactive] at hwrote hstats
  obtain ⟨hret, hmem⟩ := hwrote 2 (by decide) (Accepts.mono hok (Nat.le_refl _) (by decide))
  exact ⟨_, _, hret, hmem, hstats hok⟩

end AdaptiveXv6.Reports
