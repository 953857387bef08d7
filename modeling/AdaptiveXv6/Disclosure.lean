import AdaptiveXv6.Telemetry

namespace AdaptiveXv6.Disclosure

open Words Process Bytes CopyOut Telemetry

variable {writable : Nat → Bool} {k k' : Nat → Byte} {e : Entry} {o : Nat}

/-- The bytes of a struct procinfo that no assignment reaches: the end of the name and the padding before two
uint64 fields. -/
def Unassigned (e : Entry) (o : Nat) : Prop :=
  8 + (safestrcpy (List.ofFn e.name) 16).length ≤ o ∧ o < 24 ∨ 28 ≤ o ∧ o < 32 ∨ 132 ≤ o ∧ o < 136

theorem length_copyName_le (n : Nat) (t : List Byte) : (copyName n t).length ≤ n := by
  induction n generalizing t with
  | zero => simp [copyName]
  | succ n ih =>
    cases t with
    | nil => simp [copyName]
    | cons c t =>
      rw [copyName]
      split
      · simp
      · simpa using ih t

theorem length_safestrcpy_le (t : List Byte) : (safestrcpy t 16).length ≤ 16 := by
  have h := length_copyName_le 15 t
  rw [safestrcpy, if_neg (by decide), List.length_append, List.length_singleton]
  exact Nat.succ_le_succ h

theorem covered_procinfo (ho : o < 144) : Covered (procinfo e) o ↔ ¬Unassigned e o := by
  have hname := length_safestrcpy_le (List.ofFn e.name)
  simp only [Covered, procinfo, Within, List.mem_cons, List.not_mem_nil, or_false, exists_eq_or_imp,
    exists_eq_left, length_le, Unassigned]
  omega

theorem procinfo_eq_iff {n : Nat} (hn : n ≤ 144) :
    image (stores k (procinfo e)) n = image (stores k' (procinfo e)) n ↔
      ∀ o, o < n → Unassigned e o → k o = k' o := by
  rw [image_eq_iff]
  refine forall₂_congr (fun o ho => ?_)
  rw [stores_eq_iff, covered_procinfo (by omega), not_not]

theorem procStats_congr (dst : Nat) (max : Int) (es : List Entry) (count : Nat)
    (h : ∀ o, o < 144 → k o = k' o) :
    procStatsFrom writable dst max es count k = procStatsFrom writable dst max es count k' := by
  induction es generalizing count k k' with
  | nil => rfl
  | cons e es ih =>
    have hpi : ∀ o, o < 144 → stores k (procinfo e) o = stores k' (procinfo e) o :=
      fun o ho => stores_congr (.inr (h o ho))
    have himage : image (stores k (procinfo e)) procinfoSize = image (stores k' (procinfo e)) procinfoSize :=
      image_eq_iff.mpr hpi
    simp only [procStatsFrom, himage, ih _ h, ih _ hpi]

theorem copy_eq_iff (dst : Nat) (e : Entry) :
    copyout writable dst (image (stores k (procinfo e)) procinfoSize) =
        copyout writable dst (image (stores k' (procinfo e)) procinfoSize) ↔
      ∀ o, o < stored writable dst 144 → Unassigned e o → k o = k' o := by
  have hle : stored writable dst 144 ≤ 144 := stored_le ..
  rw [copyout_eq_iff _ dst (by simp), length_image, take_image hle, take_image hle, procinfo_eq_iff hle]

theorem proceed_eq_iff {out out' rest rest' : List (Nat × List Byte) × Int}
    (hlen : out.1.length = out'.1.length) (hcode : out.2 = out'.2)
    (hrest : out = out' → ¬out.2 < 0 → rest = rest') : proceed out rest = proceed out' rest' ↔ out = out' := by
  constructor
  · intro h
    refine Prod.ext ?_ hcode
    simp only [proceed, ← hcode] at h
    split at h
    · exact (Prod.mk.inj h).1
    · exact (List.append_inj (Prod.mk.inj h).1 hlen).1
  · intro h
    subst h
    by_cases hfail : out.2 < 0
    · simp only [proceed, if_pos hfail]
    · rw [hrest rfl hfail]

theorem procStats_eq_iff (dst : Nat) {max : Int} (hmax : 0 < max) (es : List Entry) :
    procStatsFrom writable dst max es 0 k = procStatsFrom writable dst max es 0 k' ↔
      ∀ e, es.find? (fun e => e.proc.state ≠ .unused) = some e →
        ∀ o, o < stored writable (u64 dst) 144 → Unassigned e o → k o = k' o := by
  induction es with
  | nil => simp [procStatsFrom]
  | cons e es ih =>
    by_cases hs : e.proc.state = .unused
    · simpa [procStatsFrom, hs] using ih
    · have hfind : ∀ e', (e :: es).find? (fun e => e.proc.state ≠ .unused) = some e' ↔ e = e' := by
        simp [hs]
      have hzero : ((0 : Nat) : Int) < max := hmax
      simp only [hfind, forall_eq', procStatsFrom, ne_eq, hs, not_false_eq_true, if_true, hzero,
        Nat.zero_mul, Nat.add_zero]
      rw [← copy_eq_iff]
      have hsize : (image (stores k (procinfo e)) procinfoSize).length =
          (image (stores k' (procinfo e)) procinfoSize).length := by simp
      obtain ⟨hlen, hcode⟩ := copyout_shape writable (u64 dst) hsize
      refine proceed_eq_iff hlen hcode (fun heq hok => ?_)
      -- a complete copy of the first entry fixes all that later ones could show
      have hall := stored_of_ok hok
      rw [length_image] at hall
      rw [copyout_eq_iff _ (u64 dst) hsize, length_image, hall, take_image (Nat.le_refl _),
        take_image (Nat.le_refl _), image_eq_iff] at heq
      exact procStats_congr dst max es _ heq

theorem covered_workload (c : Counts) (ho : o < 48) : Covered (workloadInfo c) o := by
  simp only [Covered, workloadInfo, Within, List.mem_cons, List.not_mem_nil, or_false, exists_eq_or_imp,
    exists_eq_left, length_le]
  omega

theorem covered_stat (ip : Inode) (ho : o < 24) : Covered (stati ip) o ↔ ¬(12 ≤ o ∧ o < 16) := by
  simp only [Covered, stati, Within, List.mem_cons, List.not_mem_nil, or_false, exists_eq_or_imp,
    exists_eq_left, length_le]
  omega

theorem getprocinfo_eq_iff (max : Int) (addr : Nat) (table : Slot → Entry) :
    sysGetprocinfo writable max addr table k = sysGetprocinfo writable max addr table k' ↔
      (0 < max → addr ≠ 0 → ∀ e, (List.ofFn table).find? (fun e => e.proc.state ≠ .unused) = some e →
        ∀ o, o < stored writable (u64 addr) 144 → Unassigned e o → k o = k' o) := by
  rw [sysGetprocinfo, sysGetprocinfo]
  by_cases h : max ≤ 0 ∨ addr = 0
  · rw [if_pos h, if_pos h]
    refine ⟨fun _ hmax haddr => ?_, fun _ => rfl⟩
    rcases h with h | h
    · omega
    · exact absurd h haddr
  · rw [if_neg h, if_neg h, getProcStats, getProcStats, procStats_eq_iff addr (by omega)]
    exact ⟨fun hall _ _ => hall, fun hall => hall (by omega) (fun h0 => h (.inr h0))⟩

theorem filestat_eq_iff (type : FileType) (ip : Inode) (addr : Nat) :
    filestat writable type ip addr k = filestat writable type ip addr k' ↔
      (type = .inode ∨ type = .device →
        ∀ o, o < stored writable addr 24 → 12 ≤ o → o < 16 → k o = k' o) := by
  rw [filestat, filestat]
  by_cases h : type = .inode ∨ type = .device
  · have hle : stored writable addr 24 ≤ 24 := stored_le ..
    have hsize : (image (stores k (stati ip)) statSize).length =
        (image (stores k' (stati ip)) statSize).length := by simp
    obtain ⟨-, hcode⟩ := copyout_shape writable addr hsize
    have hcopy := copyout_eq_iff writable addr hsize
    rw [length_image, take_image hle, take_image hle, image_eq_iff, Prod.ext_iff] at hcopy
    rw [if_pos h, if_pos h, forall_prop_of_true h]
    simp only [Prod.mk.injEq, hcode, and_true] at hcopy ⊢
    rw [hcopy]
    refine forall₂_congr (fun o ho => ?_)
    rw [stores_eq_iff, covered_stat ip (by omega), not_not, and_imp]
  · simp [h]

/-- The workload summary never depends on the kernel stack. What the other two calls write differs just when
the stacks differ in an unassigned byte that is copied out. -/
theorem stack_disclosed (writable : Nat → Bool) (table : Slot → Entry) (max : Int) (addr : Nat)
    (type : FileType) (ip : Inode) (k k' : Nat → Byte) :
    sysGetworkload writable addr table k = sysGetworkload writable addr table k' ∧
    (sysGetprocinfo writable max addr table k = sysGetprocinfo writable max addr table k' ↔
      (0 < max → addr ≠ 0 → ∀ e, (List.ofFn table).find? (fun e => e.proc.state ≠ .unused) = some e →
        ∀ o, o < stored writable (u64 addr) 144 → Unassigned e o → k o = k' o)) ∧
    (filestat writable type ip addr k = filestat writable type ip addr k' ↔
      (type = .inode ∨ type = .device →
        ∀ o, o < stored writable addr 24 → 12 ≤ o → o < 16 → k o = k' o)) := by
  refine ⟨?_, getprocinfo_eq_iff max addr table, filestat_eq_iff type ip addr⟩
  have himage : image (stores k (getWorkloadStats table)) workloadSize =
      image (stores k' (getWorkloadStats table)) workloadSize :=
    image_eq_iff.mpr (fun o ho => stores_congr (.inl (covered_workload _ ho)))
  simp only [sysGetworkload, himage]

def initEntry : Entry := ⟨{ procinit with state := .running, pid := 1 }, 0, fun i => if i.val < 4 then 105 else 0⟩

theorem stack_disclosed_init : ∃ (table : Slot → Entry) (ip : Inode) (k k' : Nat → Byte),
    sysGetprocinfo (fun _ => true) 1 4096 table k ≠ sysGetprocinfo (fun _ => true) 1 4096 table k' ∧
      filestat (fun _ => true) .inode ip 4096 k ≠ filestat (fun _ => true) .inode ip 4096 k' := by
  refine ⟨fun p => if p.val = 0 then initEntry else ⟨procinit, 0, fun _ => 0⟩, ⟨1, 1, 1, 1, 0⟩, fun _ => 0,
    fun _ => 1, ?_, ?_⟩
  · rw [Ne, getprocinfo_eq_iff]
    intro h
    have hbyte := h (by decide) (by decide) initEntry rfl 28 (by decide) (.inr (.inl (by decide)))
    exact absurd hbyte (by decide)
  · rw [Ne, filestat_eq_iff]
    intro h
    exact absurd (h (.inl rfl) 12 (by decide) (by decide) (by decide)) (by decide)

end AdaptiveXv6.Disclosure
