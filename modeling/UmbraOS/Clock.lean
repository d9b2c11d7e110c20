import UmbraOS.SchedulerRuns
import Mathlib.Data.Nat.ModEq

namespace UmbraOS

namespace Scheduler

variable {hw : Platform} {fuel : Nat} {s s' : Scheduler}

theorem saveContext_realTime {context : Registers} (h : s.saveContext context = .ok s') :
    s'.realTime = s.realTime := by
  unfold saveContext at h
  split at h
  next => cases h; rfl
  next =>
    obtain ⟨task, -, h⟩ := Except.bind_eq_ok.mp h
    split at h
    next =>
      obtain ⟨contexts, -, h⟩ := Except.bind_eq_ok.mp h
      cases h
      rfl
    next => cases h; rfl

theorem advance_realTime (h : s.advance = .ok s') : s'.realTime = s.realTime := by
  unfold advance at h
  split at h
  next => cases h; rfl
  next =>
    obtain ⟨next, -, h⟩ := Except.bind_eq_ok.mp h
    cases h
    rfl

theorem setStatus_realTime {status : Status} (h : s.setStatus status = .ok s') :
    s'.realTime = s.realTime := by
  obtain ⟨tasks, -, h⟩ := Except.bind_eq_ok.mp h
  cases h
  rfl

theorem skip_realTime (h : s.skip = .ok s') : s'.realTime = s.realTime := by
  obtain ⟨⟨next, queue⟩, -, h⟩ := Except.bind_eq_ok.mp h
  simp only at h
  split at h
  next =>
    obtain ⟨task, -, h⟩ := Except.bind_eq_ok.mp h
    cases h
    rfl
  next => cases h; rfl

theorem turn_realTime {stop : Bool} (h : s.turn hw = .ok (stop, s')) :
    s'.realTime = s.realTime := by
  obtain ⟨task, -, h⟩ := Except.bind_eq_ok.mp h
  cases hstatus : task.status with
  | running =>
    rw [hstatus] at h
    cases h
    rfl
  | ready =>
    rw [hstatus] at h
    obtain ⟨t, ht, h⟩ := Except.bind_eq_ok.mp h
    cases h
    exact setStatus_realTime ht
  | sleeping =>
    rw [hstatus] at h
    simp only at h
    split at h
    next =>
      obtain ⟨t, ht, h⟩ := Except.bind_eq_ok.mp h
      cases h
      have hset := setStatus_realTime ht
      exact hset
    next =>
      obtain ⟨t, ht, h⟩ := Except.bind_eq_ok.mp h
      cases h
      have hskip := skip_realTime ht
      exact hskip
  | waitingIo =>
    rw [hstatus] at h
    obtain ⟨t, ht, h⟩ := Except.bind_eq_ok.mp h
    cases h
    exact skip_realTime ht

theorem selectLoop_realTime (h : s.selectLoop hw fuel = .ok s') : s'.realTime = s.realTime := by
  induction fuel generalizing s with
  | zero =>
    obtain ⟨⟨stop, t⟩, ht, h⟩ := Except.bind_eq_ok.mp h
    cases stop with
    | true =>
      cases h
      exact turn_realTime ht
    | false => cases h
  | succ fuel ih =>
    obtain ⟨⟨stop, t⟩, ht, h⟩ := Except.bind_eq_ok.mp h
    cases stop with
    | true =>
      cases h
      exact turn_realTime ht
    | false => exact (ih h).trans (turn_realTime ht)

theorem schedule_realTime {context : Registers} {r : Registers × Scheduler}
    (h : s.schedule hw fuel context = .ok r) : r.2.realTime = s.realTime := by
  unfold schedule at h
  split at h
  next => cases h; rfl
  next =>
    obtain ⟨saved, hsaved, h⟩ := Except.bind_eq_ok.mp h
    obtain ⟨selected, hselected, h⟩ := Except.bind_eq_ok.mp h
    obtain ⟨advanced, hadvanced, hselected⟩ := Except.bind_eq_ok.mp hselected
    obtain ⟨task, -, h⟩ := Except.bind_eq_ok.mp h
    obtain ⟨registers, -, h⟩ := Except.bind_eq_ok.mp h
    obtain ⟨space, -, h⟩ := Except.bind_eq_ok.mp h
    cases h
    exact ((selectLoop_realTime hselected).trans (advance_realTime hadvanced)).trans
      (saveContext_realTime hsaved)

/-- Every entry of the handler counts a millisecond, be it a tick or not. -/
theorem handler_realTime {regs : Registers} {r : Registers × Scheduler}
    (h : s.handler hw fuel regs = .ok r) : r.2.realTime = u64 (s.realTime + 1) :=
  schedule_realTime h

theorem sleep_realTime {ms : Nat} {regs : Registers} {r : Registers × Scheduler}
    (h : s.sleep hw fuel ms regs = .ok r) : r.2.realTime = u64 (s.realTime + 1) := by
  obtain ⟨t, ht, h⟩ := Except.bind_eq_ok.mp h
  obtain ⟨tasks, -, h⟩ := Except.bind_eq_ok.mp h
  rw [handler_realTime h, ← setStatus_realTime ht]

theorem awaitIo_realTime {regs : Registers} {r : Registers × Scheduler}
    (h : s.awaitIo hw fuel regs = .ok r) : r.2.realTime = u64 (s.realTime + 1) := by
  obtain ⟨t, ht, h⟩ := Except.bind_eq_ok.mp h
  rw [handler_realTime h, setStatus_realTime ht]

end Scheduler

/-- The clocks of `time.h` and an error of `errno.h`, which come from the C library. -/
structure ClockIds where
  realtime : BitVec 32
  realtimeCoarse : BitVec 32
  boottime : BitVec 32
  monotonic : BitVec 32
  monotonicRaw : BitVec 32
  monotonicCoarse : BitVec 32
  processCputime : BitVec 32
  threadCputime : BitVec 32
  enosys : BitVec 32

namespace Timer

/-- `init`: the bootloader gives the boot time in seconds. -/
def init (bootTime : Nat) : Nat := u64 (bootTime * 1000)

end Timer

/-- What the two pointers of `sys_clock_get` point to. -/
structure TimeSpec where
  secs : BitVec 64
  nanos : BitVec 64

/-- `sys_clock_get`: the value returned, and what it leaves at the pointers. -/
def sysClockGet (ids : ClockIds) (s : Scheduler) (clock : BitVec 32) (out : TimeSpec) :
    BitVec 32 × TimeSpec :=
  if clock = ids.realtime ∨ clock = ids.realtimeCoarse then
    let ms := s.realTime
    (0#32, ⟨BitVec.ofNat 64 (ms / 1000), BitVec.ofNat 64 (ms * 1000000)⟩)
  else if clock = ids.boottime ∨ clock = ids.monotonic ∨ clock = ids.monotonicRaw ∨
      clock = ids.monotonicCoarse then (0#32, out)
  else if clock = ids.processCputime ∨ clock = ids.threadCputime then (0#32, ⟨0#64, 0#64⟩)
  else (-ids.enosys, out)

namespace Clock

open Scheduler

/-- The operations of which each enters the handler of the timer once. -/
inductive Enters : Op → Prop
  | timer (regs : Registers) : Enters (.timer regs)
  | yield (regs : Registers) : Enters (.yield regs)
  | sleep (ms : Nat) (regs : Registers) : Enters (.sleep ms regs)
  | awaitIo (regs : Registers) : Enters (.awaitIo regs)

def isTick : Op → Bool
  | .timer _ => true
  | _ => false

/-- The ticks of the hardware in a run. -/
def ticks (ops : List Op) : Nat := ops.countP isTick

/-- The entries of the handler that no tick caused. -/
def yields (ops : List Op) : Nat := ops.countP fun op => !isTick op

/-- The time in nanoseconds, as normalised seconds and nanoseconds. -/
structure Reports (time : TimeSpec) (ns : Nat) : Prop where
  nonneg : 0 ≤ time.nanos.toInt
  below : time.nanos.toInt < 1000000000
  total : time.secs.toInt * 1000000000 + time.nanos.toInt = ns

variable {hw : Platform} {fuel : Nat} {s s' : Scheduler}

theorem step_realTime {op : Op} (he : Enters op) (h : Scheduler.step hw fuel s op = .ok s') :
    s'.realTime = u64 (s.realTime + 1) := by
  cases he with
  | timer regs =>
    obtain ⟨r, hr, rfl⟩ := Except.map_eq_ok.mp h
    exact handler_realTime hr
  | yield regs =>
    obtain ⟨r, hr, rfl⟩ := Except.map_eq_ok.mp h
    exact handler_realTime hr
  | sleep ms regs =>
    obtain ⟨r, hr, rfl⟩ := Except.map_eq_ok.mp h
    exact sleep_realTime hr
  | awaitIo regs =>
    obtain ⟨r, hr, rfl⟩ := Except.map_eq_ok.mp h
    exact awaitIo_realTime hr

/-- The counter after a run. -/
theorem run_realTime {ops : List Op} (he : ∀ op ∈ ops, Enters op) (hs : s.realTime < 2 ^ 64)
    (h : run (Scheduler.step hw fuel) s ops = .ok s') :
    s'.realTime = u64 (s.realTime + ops.length) := by
  induction ops generalizing s with
  | nil =>
    cases h
    exact (u64_of_lt hs).symm
  | cons op ops ih =>
    obtain ⟨t, ht, h⟩ := run_cons_ok.mp h
    have hstep := step_realTime (he op List.mem_cons_self) ht
    have hlt : t.realTime < 2 ^ 64 := by
      rw [hstep]
      exact u64_lt _
    rw [ih (fun op' ho => he op' (List.mem_cons_of_mem op ho)) hlt h, hstep, List.length_cons]
    simp only [u64]
    omega

theorem length_eq (ops : List Op) : ops.length = ticks ops + yields ops := by
  have hnot : (fun op => !isTick op) = fun op => decide ¬isTick op = true := by
    funext op
    cases isTick op <;> rfl
  rw [ticks, yields, hnot]
  exact List.length_eq_countP_add_countP isTick

theorem normalised_iff {q x ms : Nat} :
    x * 64 < 1000000000 ∧ q * 1000000000 + x * 64 = ms * 1000000 ↔
      q = ms / 1000 ∧ x = ms % 1000 * 15625 := by
  omega

/-- A signed 64-bit word is the small number that its unsigned value is. -/
theorem toInt_small_iff {n k : Nat} (hk : k < 2 ^ 63) :
    0 ≤ (BitVec.ofNat 64 n).toInt ∧ (BitVec.ofNat 64 n).toInt < k ↔ n % 2 ^ 64 < k := by
  rw [BitVec.toInt_eq_toNat_cond, BitVec.toNat_ofNat]
  split
  next => omega
  next => omega

theorem toInt_small {n : Nat} (h : n % 2 ^ 64 < 2 ^ 63) :
    (BitVec.ofNat 64 n).toInt = (n % 2 ^ 64 : Nat) := by
  rw [BitVec.toInt_eq_toNat_cond, BitVec.toNat_ofNat, if_pos (by omega)]

/-- Multiplication by an odd number loses nothing of a 58-bit word. -/
theorem mul_mod_iff {now d : Nat} (hd : d < 1000) :
    now * 15625 % 2 ^ 58 = d * 15625 ↔ now % 2 ^ 58 = d := by
  have hcoprime : Nat.Coprime (2 ^ 58) 15625 := Nat.Coprime.pow_left 58 (by decide)
  have hsmall : d < 2 ^ 58 := Nat.lt_trans hd (by decide)
  have hproduct : d * 15625 < 2 ^ 58 := by omega
  constructor
  · intro h
    have hmod : now * 15625 ≡ d * 15625 [MOD 2 ^ 58] := by
      rw [Nat.ModEq, h, Nat.mod_eq_of_lt hproduct]
    have hd' := Nat.ModEq.cancel_right_of_coprime hcoprime.gcd_eq_one hmod
    rwa [Nat.ModEq, Nat.mod_eq_of_lt hsmall] at hd'
  · intro h
    rw [← Nat.mod_mul_mod, h, Nat.mod_eq_of_lt hproduct]

/-- The conversion of `sys_clock_get` is right about a time exactly if the counter agrees with
the time in its seconds, and the product with which it fills `nanos` wraps around to the rest. -/
theorem reports_iff {now ms : Nat} (hnow : now < 2 ^ 64) :
    Reports ⟨BitVec.ofNat 64 (now / 1000), BitVec.ofNat 64 (now * 1000000)⟩ (ms * 1000000) ↔
      now / 1000 = ms / 1000 ∧ now % 2 ^ 58 = ms % 1000 := by
  have hsecs : (BitVec.ofNat 64 (now / 1000)).toInt = (now / 1000 : Nat) := by
    have hmod : now / 1000 % 2 ^ 64 = now / 1000 := by omega
    rw [toInt_small (by omega), hmod]
  have hwrap : now * 1000000 % 2 ^ 64 = now * 15625 % 2 ^ 58 * 64 := by omega
  have hrest : now * 15625 % 2 ^ 58 = ms % 1000 * 15625 ↔ now % 2 ^ 58 = ms % 1000 :=
    mul_mod_iff (Nat.mod_lt ms (show 0 < 1000 by decide))
  have hrange : 0 ≤ (BitVec.ofNat 64 (now * 1000000)).toInt ∧
      (BitVec.ofNat 64 (now * 1000000)).toInt < (1000000000 : Nat) ↔
      now * 15625 % 2 ^ 58 * 64 < 1000000000 := by
    rw [toInt_small_iff (by decide), hwrap]
  have hnanos : now * 15625 % 2 ^ 58 * 64 < 1000000000 →
      (BitVec.ofNat 64 (now * 1000000)).toInt = (now * 15625 % 2 ^ 58 * 64 : Nat) := by
    intro h
    rw [toInt_small (by rw [hwrap]; exact Nat.lt_trans h (by decide)), hwrap]
  rw [← hrest, ← normalised_iff]
  constructor
  · intro h
    have hlt := hrange.mp ⟨h.nonneg, h.below⟩
    have htotal := h.total
    simp only at htotal
    rw [hsecs, hnanos hlt] at htotal
    exact ⟨hlt, by exact_mod_cast htotal⟩
  · intro h
    obtain ⟨hlt, htotal⟩ := h
    obtain ⟨hnonneg, hbelow⟩ := hrange.mpr hlt
    refine ⟨hnonneg, hbelow, ?_⟩
    simp only
    rw [hsecs, hnanos hlt]
    exact_mod_cast htotal

/-- The clock is right after the ticks and the other entries of the handler: the counter has the
seconds of the true time, and its low 58 bits are the milliseconds that are left over. -/
def Right (bootTime ticks yields : Nat) : Prop :=
  u64 (bootTime * 1000 + ticks + yields) / 1000 = (bootTime * 1000 + ticks) / 1000 ∧
    u64 (bootTime * 1000 + ticks + yields) % 2 ^ 58 = (bootTime * 1000 + ticks) % 1000

instance (bootTime ticks yields : Nat) : Decidable (Right bootTime ticks yields) :=
  inferInstanceAs (Decidable (_ ∧ _))

/-- Until the counter reaches 2 ^ 58 the clock is right only in the first second of 1970, if the
handler was entered by ticks alone. -/
theorem right_iff {bootTime ticks yields : Nat} (h : bootTime * 1000 + ticks + yields < 2 ^ 58) :
    Right bootTime ticks yields ↔ bootTime = 0 ∧ ticks < 1000 ∧ yields = 0 := by
  rw [Right, u64_of_lt (by omega)]
  omega

/-- After every run of ticks and of calls that yield, `sys_clock_get` reports the boot time plus a
millisecond for each tick exactly if the clock is right. -/
theorem clock_get_iff (ids : ClockIds) (bootTime : Nat) (hs : s.realTime = Timer.init bootTime)
    {ops : List Op} (he : ∀ op ∈ ops, Enters op)
    (h : run (Scheduler.step hw fuel) s ops = .ok s') {clock : BitVec 32}
    (hc : clock = ids.realtime ∨ clock = ids.realtimeCoarse) (out : TimeSpec) :
    ((sysClockGet ids s' clock out).1 = 0#32 ∧
      Reports (sysClockGet ids s' clock out).2 ((bootTime * 1000 + ticks ops) * 1000000)) ↔
        Right bootTime (ticks ops) (yields ops) := by
  have hstart : s.realTime < 2 ^ 64 := by
    rw [hs]
    exact u64_lt _
  have hend : s'.realTime = u64 (bootTime * 1000 + ticks ops + yields ops) := by
    rw [run_realTime he hstart h, hs, length_eq, Timer.init]
    simp only [u64]
    omega
  rw [sysClockGet, if_pos hc, Right, ← hend, ← reports_iff (hend ▸ u64_lt _)]
  exact ⟨fun h => h.2, fun h => ⟨rfl, h⟩⟩

/-- The numbers that Linux and mlibc give the clocks. -/
def linuxClocks : ClockIds := ⟨0, 5, 7, 1, 4, 6, 2, 3, 38⟩

/-- A scheduler with its idle task only, just after the boot. -/
def booted (bootTime : Nat) : Scheduler :=
  { Scheduler.init plainTask with realTime := Timer.init bootTime }

/-- A tick and a call of `yield`. -/
def tickAndYield : List Op := [.timer zeroRegisters, .yield zeroRegisters]

theorem tickAndYield_enters : ∀ op ∈ tickAndYield, Enters op := by
  intro op ho
  rcases List.mem_cons.mp ho with rfl | ho
  · exact .timer zeroRegisters
  · rw [List.mem_singleton.mp ho]
    exact .yield zeroRegisters

theorem booted_clock : ∃ s', run (Scheduler.step ⟨id, 1, 0⟩ 0) (booted 0) tickAndYield = .ok s' ∧
    (((sysClockGet linuxClocks s' 0#32 ⟨0#64, 0#64⟩).1 = 0#32 ∧
      Reports (sysClockGet linuxClocks s' 0#32 ⟨0#64, 0#64⟩).2
        ((0 * 1000 + ticks tickAndYield) * 1000000)) ↔
      Right 0 (ticks tickAndYield) (yields tickAndYield)) := by
  have hrun : ∃ s', run (Scheduler.step ⟨id, 1, 0⟩ 0) (booted 0) tickAndYield = .ok s' := ⟨_, rfl⟩
  obtain ⟨s', hs⟩ := hrun
  exact ⟨s', hs, clock_get_iff linuxClocks 0 rfl tickAndYield_enters hs (Or.inl rfl) ⟨0#64, 0#64⟩⟩

/-- A second after 1970 the nanoseconds are not reduced, and in the first millisecond a `yield`
counts as one. -/
theorem clock_not_normalised : (∃ s', run (Scheduler.step ⟨id, 1, 0⟩ 0) (booted 1)
      [.timer zeroRegisters] = .ok s' ∧
      ¬Reports (sysClockGet linuxClocks s' 0#32 ⟨0#64, 0#64⟩).2 ((1 * 1000 + 1) * 1000000)) ∧
    ∃ s', run (Scheduler.step ⟨id, 1, 0⟩ 0) (booted 0) [.yield zeroRegisters] = .ok s' ∧
      ¬Reports (sysClockGet linuxClocks s' 0#32 ⟨0#64, 0#64⟩).2 ((0 * 1000 + 0) * 1000000) := by
  refine ⟨⟨_, rfl, fun h => ?_⟩, ⟨_, rfl, fun h => ?_⟩⟩
  · exact absurd h.below (by decide)
  · exact absurd h.total (by decide)

end Clock

end UmbraOS
