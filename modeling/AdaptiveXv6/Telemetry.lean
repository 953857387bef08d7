import AdaptiveXv6.CopyOut
import AdaptiveXv6.Process

namespace AdaptiveXv6.Telemetry

open Words Process Bytes CopyOut

def stateCode : ProcState → Nat
  | .unused => 0
  | .used => 1
  | .sleeping => 2
  | .runnable => 3
  | .running => 4
  | .zombie => 5

def typeCode : ProcType → Nat
  | .interactive => 0
  | .cpuBound => 1
  | .mixed => 2

def healthCode : HealthStatus → Nat
  | .normal => 0
  | .warning => 1
  | .critical => 2

def copyName : Nat → List Byte → List Byte
  | n + 1, c :: t => if c = 0 then [c] else c :: copyName n t
  | _, _ => []

def safestrcpy (t : List Byte) (n : Nat) : List Byte := if n = 0 then [] else copyName (n - 1) t ++ [0]

structure Entry where
  proc : Proc
  ppid : Int
  name : Fin 16 → Byte

abbrev procinfoSize : Nat := 144

/-- The assignments to the fields of a struct procinfo, at their offsets. -/
def procinfo (e : Entry) : List (Nat × List Byte) :=
  [(0, le 4 (u32OfInt e.proc.pid)),
   (4, le 4 (u32OfInt e.ppid)),
   (8, safestrcpy (List.ofFn e.name) 16),
   (24, le 4 (stateCode e.proc.state)),
   (32, le 8 e.proc.cputicks),
   (40, le 8 e.proc.waitticks),
   (48, le 8 e.proc.schedCount),
   (56, le 8 e.proc.switches),
   (64, le 8 e.proc.creationTick),
   (72, le 8 e.proc.lastSchedTick),
   (80, le 4 e.proc.currentBurst),
   (84, le 4 e.proc.lastBurst),
   (88, le 4 e.proc.estBurst),
   (92, le 4 (typeCode e.proc.procType)),
   (96, le 4 (u32OfInt e.proc.priority)),
   (100, le 4 e.proc.timeSlice),
   (104, le 4 e.proc.ticksInSlice),
   (108, le 4 e.proc.predictedBurst),
   (112, le 4 e.proc.predictionError),
   (116, le 4 (u32OfInt e.proc.anomalyScore)),
   (120, le 4 e.proc.anomalyFlags),
   (124, le 4 (healthCode e.proc.healthStatus)),
   (128, le 4 e.proc.healingActions),
   (136, le 8 e.proc.lastHealTick)]

def proceed (out rest : List (Nat × List Byte) × Int) : List (Nat × List Byte) × Int :=
  if out.2 < 0 then (out.1, -1) else (out.1 ++ rest.1, rest.2)

/-- The loop of get_proc_stats() over the rest of the table. The variable pi has the same bytes of the kernel
stack in every turn. -/
def procStatsFrom (writable : Nat → Bool) (dst : Nat) (max : Int) :
    List Entry → Nat → (Nat → Byte) → List (Nat × List Byte) × Int
  | [], count, _ => ([], count)
  | e :: es, count, stack =>
    if e.proc.state ≠ .unused then
      if count < max then
        let pi := stores stack (procinfo e)
        proceed (copyout writable (u64 (dst + count * procinfoSize)) (image pi procinfoSize))
          (procStatsFrom writable dst max es (count + 1) pi)
      else procStatsFrom writable dst max es (count + 1) stack
    else procStatsFrom writable dst max es count stack

def getProcStats (writable : Nat → Bool) (dst : Nat) (max : Int) (table : Slot → Entry) (stack : Nat → Byte) :
    List (Nat × List Byte) × Int :=
  procStatsFrom writable dst max (List.ofFn table) 0 stack

def sysGetprocinfo (writable : Nat → Bool) (max : Int) (addr : Nat) (table : Slot → Entry)
    (stack : Nat → Byte) : List (Nat × List Byte) × Int :=
  if max ≤ 0 ∨ addr = 0 then ([], -1) else getProcStats writable addr max table stack

structure Counts where
  runnable : Nat
  running : Nat
  sleeping : Nat
  total : Nat
  interactive : Nat
  cpuBound : Nat
  mixed : Nat
  healthy : Nat
  warning : Nat
  critical : Nat
  totalHeals : Int
  totalBurst : Nat

def Counts.zero : Counts := ⟨0, 0, 0, 0, 0, 0, 0, 0, 0, 0, 0, 0⟩

def Counts.add (c : Counts) (p : Proc) : Counts :=
  if p.state ≠ .unused then
    { runnable := c.runnable + if p.state = .runnable then 1 else 0
      running := c.running + if p.state = .running then 1 else 0
      sleeping := c.sleeping + if p.state = .sleeping then 1 else 0
      total := c.total + 1
      interactive := c.interactive + if p.procType = .interactive then 1 else 0
      cpuBound := c.cpuBound + if p.procType = .cpuBound then 1 else 0
      mixed := c.mixed + if p.procType = .mixed then 1 else 0
      healthy := c.healthy + if p.healthStatus = .normal then 1 else 0
      warning := c.warning + if p.healthStatus = .warning then 1 else 0
      critical := c.critical + if p.healthStatus = .critical then 1 else 0
      totalHeals := i32 (c.totalHeals + p.healingActions)
      totalBurst := u32 (c.totalBurst + p.estBurst) }
  else c

abbrev workloadSize : Nat := 48

def workloadInfo (c : Counts) : List (Nat × List Byte) :=
  [(0, le 4 c.runnable),
   (4, le 4 c.running),
   (8, le 4 c.sleeping),
   (12, le 4 c.total),
   (16, le 4 (if c.total > 0 then c.totalBurst / c.total else 0)),
   (20, le 4 (if c.total > 0 then c.interactive * 100 / c.total else 0)),
   (24, le 4 (if c.total > 0 then c.cpuBound * 100 / c.total else 0)),
   (28, le 4 (if c.total > 0 then c.mixed * 100 / c.total else 0)),
   (32, le 4 c.healthy),
   (36, le 4 c.warning),
   (40, le 4 c.critical),
   (44, le 4 (u32OfInt c.totalHeals))]

def getWorkloadStats (table : Slot → Entry) : List (Nat × List Byte) :=
  workloadInfo ((List.ofFn table).foldl (fun c e => c.add e.proc) Counts.zero)

def sysGetworkload (writable : Nat → Bool) (addr : Nat) (table : Slot → Entry) (stack : Nat → Byte) :
    List (Nat × List Byte) × Int :=
  if addr = 0 then ([], -1)
  else
    let out := copyout writable addr (image (stores stack (getWorkloadStats table)) workloadSize)
    (out.1, if out.2 < 0 then -1 else 0)

structure Inode where
  dev : Nat
  inum : Nat
  type : BitVec 16
  nlink : BitVec 16
  size : Nat

inductive FileType
  | none | pipe | inode | device
  deriving DecidableEq, Repr

abbrev statSize : Nat := 24

def stati (ip : Inode) : List (Nat × List Byte) :=
  [(0, le 4 ip.dev), (4, le 4 ip.inum), (8, le 2 ip.type.toNat), (10, le 2 ip.nlink.toNat), (16, le 8 ip.size)]

def filestat (writable : Nat → Bool) (type : FileType) (ip : Inode) (addr : Nat) (stack : Nat → Byte) :
    List (Nat × List Byte) × Int :=
  if type = .inode ∨ type = .device then
    let out := copyout writable addr (image (stores stack (stati ip)) statSize)
    (out.1, if out.2 < 0 then -1 else 0)
  else ([], -1)

end AdaptiveXv6.Telemetry
