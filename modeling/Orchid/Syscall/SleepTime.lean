import Orchid.Core.Pit
import Orchid.Syscall.Sleep

/-! # How long a sleep lasts on the clock

`pit_init` of `kernel/pit.c` has the timer raise its line once in 11931 clocks. The interrupt
controller keeps one request, and `timer_tick` counts it when it is taken: at once, or after any
time for which interrupts are off. The clock runs at 1193182 Hz, so that 100 ticks are a little
less than a second.

A call that asks for `n` ticks may find a request waiting that counts as the first of them, and
the second may be raised by the next clock. So the shortest that it lasts is `n - 2` periods and
a clock (`sleep_shortest`), and a thread that asks for some seconds can be back before them.
-/

namespace Orchid

open Machine Pit Function

/-! ## Model -/

/-- The writes of `pit_init`. -/
def pitInit : List (Nat × Nat) :=
  let divisor := 1193180 / 100 % 2 ^ 16
  [(0x43, 0x36), (0x40, divisor &&& 0xFF), (0x40, divisor >>> 8)]

/-- The kernel and the timer. -/
structure OnClock where
  kernel : Clocked
  pit : Channel
  /-- The request for line 0 that the interrupt controller keeps. -/
  irq : Bool
  /-- The clocks since `pit_init`. -/
  clocks : Nat
  /-- The clocks when each thread last read `ticks` for a call. -/
  askedAt : Tid → Nat

namespace OnClock

/-- `pit_init` has been run, at any time before. -/
def Init : StatePred OnClock := fun s =>
  s.kernel.Init ∧ ∃ c : Channel, s.pit = (fun p => p.clock.2)^[s.clocks] (c.outbs pitInit)

/-- A clock of the timer, or a step of the kernel. A tick takes the request. -/
inductive Next : Action OnClock where
  | clock {s : OnClock} :
      Next s { s with
        pit := s.pit.clock.2
        irq := s.irq || s.pit.clock.1
        clocks := s.clocks + 1 }
  | tick {s : OnClock} {fuel : Nat} {timer : Timer} {q : Sched} : s.irq = true →
      timerTick fuel s.kernel.timer s.kernel.run.sched = some (timer, q) →
      Next s { s with
        kernel := { s.kernel with
          run := { s.kernel.run with sched := q }
          timer := timer
          beats := s.kernel.beats + 1 }
        irq := false }
  | readTicks {s : OnClock} {cur : Tid} (c : SleepCall) : s.kernel.Calls cur →
      Next s { s with
        kernel := { s.kernel with
          stage := update s.kernel.stage cur (.due (c.deadline s.kernel.timer.ticks))
          asked := update s.kernel.asked cur (some (s.kernel.beats, c)) }
        askedAt := update s.askedAt cur s.clocks }
  | kernel {s : OnClock} {k : Clocked} : Clocked.Next s.kernel k →
      k.beats = s.kernel.beats → k.asked = s.kernel.asked → Next s { s with kernel := k }

/-! ## The shortest time -/

section Least

variable {s s' : OnClock} {t : Tid} {b : Nat} {c : SleepCall}

/-- The kernel runs as it does without the timer. -/
theorem kernel_reachable (h : Reachable Init Next s) :
    Reachable Clocked.Init Clocked.Next s.kernel := by
  induction h with
  | init h => exact .init h.1
  | step _ hnext ih =>
    cases hnext with
    | clock => exact ih
    | tick _ htick => exact ih.step (.timerTick htick)
    | readTicks c hcalls => exact ih.step (.readTicks c hcalls)
    | kernel hnext => exact ih.step hnext

theorem after_pitInit (c : Channel) : (c.outbs pitInit).After 11931 0 where
  periodic := ⟨rfl, .inr rfl⟩
  period := rfl
  phase := rfl

structure Inv (s : OnClock) : Prop where
  pit : s.pit.After 11931 s.clocks
  /-- Since a call there were no more ticks, with the one to come, than periods have ended,
  except for one that was to come then. -/
  ticks : ∀ t b c, s.kernel.asked t = some (b, c) → s.askedAt t ≤ s.clocks ∧
    s.kernel.beats + s.irq.toNat + s.askedAt t / 11931 ≤ b + 1 + s.clocks / 11931

theorem Init.inv (h : Init s) : s.Inv := by
  rcases h with ⟨hkernel, c, hpit⟩
  constructor
  · rw [hpit]
    generalize s.clocks = n
    induction n with
    | zero => exact after_pitInit c
    | succ n ih =>
      rw [iterate_succ_apply']
      exact ih.clock.1
  · intro t b c hasked
    rw [hkernel.2.2.2.2.2.2 t] at hasked
    cases hasked

/-- A period that ends is a request more, or one that is lost. -/
theorem Inv.clock (h : s.Inv) :
    Inv { s with
      pit := s.pit.clock.2
      irq := s.irq || s.pit.clock.1
      clocks := s.clocks + 1 } := by
  rcases h.pit.clock with ⟨hpit, hrises⟩
  refine ⟨hpit, ?_⟩
  intro t b c hasked
  rcases h.ticks t b c hasked with ⟨hle, hticks⟩
  refine ⟨Nat.le_succ_of_le hle, ?_⟩
  dsimp only
  rw [Nat.succ_div]
  cases hedge : s.pit.clock.1 with
  | false =>
    rw [Bool.or_false]
    omega
  | true =>
    rw [if_pos (hrises.mp hedge), Bool.or_true, Bool.toNat_true]
    omega

theorem Inv.tick {timer : Timer} {q : Sched} (h : s.Inv) (hirq : s.irq = true) :
    Inv { s with
      kernel := { s.kernel with
        run := { s.kernel.run with sched := q }
        timer := timer
        beats := s.kernel.beats + 1 }
      irq := false } := by
  refine ⟨h.pit, ?_⟩
  intro t b c hasked
  rcases h.ticks t b c hasked with ⟨hle, hticks⟩
  refine ⟨hle, ?_⟩
  rw [hirq, Bool.toNat_true] at hticks
  exact hticks

theorem Inv.readTicks {cur : Tid} {stage : Stage} (c : SleepCall) (h : s.Inv) :
    Inv { s with
      kernel := { s.kernel with
        stage := update s.kernel.stage cur stage
        asked := update s.kernel.asked cur (some (s.kernel.beats, c)) }
      askedAt := update s.askedAt cur s.clocks } := by
  refine ⟨h.pit, ?_⟩
  intro t b c' hasked
  dsimp only at hasked ⊢
  by_cases ht : t = cur
  · subst ht
    rw [update_self] at hasked ⊢
    cases hasked
    have hirq := Bool.toNat_le s.irq
    exact ⟨Nat.le_refl _, by omega⟩
  · rw [update_of_ne ht] at hasked ⊢
    exact h.ticks t b c' hasked

theorem Inv.next (h : s.Inv) (hnext : Next s s') : s'.Inv := by
  cases hnext with
  | clock => exact h.clock
  | tick hirq _ => exact h.tick hirq
  | readTicks c _ => exact h.readTicks c
  | kernel _ hbeats hasked =>
    refine ⟨h.pit, ?_⟩
    dsimp only
    rw [hbeats, hasked]
    exact h.ticks

theorem inv_of_reachable (h : Reachable Init Next s) : s.Inv :=
  h.invariant (fun _ h => h.inv) fun _ _ hnext hinv => hinv.next hnext

/-- As many periods have ended as ticks were asked for, but one. -/
theorem resumed_clocks (h : Reachable Init Next s) (hasked : s.kernel.asked t = some (b, c))
    (hfits : c.Fits (b % 2 ^ 64)) (hresumed : s.kernel.Resumed t) (hneed : 2 ≤ c.need) :
    (c.need - 2) * 11931 + 1 ≤ s.clocks - s.askedAt t := by
  have hinv := inv_of_reachable h
  have helapsed := Clocked.resumed_elapsed (kernel_reachable h) hasked hresumed
  rw [Clocked.deadlineOf, hfits.deadline, Nat.add_sub_cancel_left] at helapsed
  rcases hinv.ticks t b c hasked with ⟨hle, hticks⟩
  omega

end Least

/-! ## A sleep that is as short as that -/

section Attained

variable {s : OnClock} {c : SleepCall}

/-- Clocks that pass while the kernel does nothing: the request is there if a period has ended. -/
theorem clocks_pass (n : Nat) (h : Reachable Init Next s) :
    ∃ pit irq, Reachable Init Next ⟨s.kernel, pit, irq, s.clocks + n, s.askedAt⟩ ∧
      (irq = true ∨ (s.clocks + n) / 11931 = s.clocks / 11931) := by
  induction n with
  | zero => exact ⟨s.pit, s.irq, h, .inr rfl⟩
  | succ n ih =>
    rcases ih with ⟨pit, irq, hreach, hirq⟩
    refine ⟨_, _, hreach.step .clock, ?_⟩
    rcases (inv_of_reachable hreach).pit.clock with ⟨-, hrises⟩
    dsimp only at hrises ⊢
    by_cases hedge : pit.clock.1 = true
    · left
      rw [hedge, Bool.or_true]
    · rw [hrises] at hedge
      rcases hirq with hirq | hsame
      · left
        rw [hirq, Bool.true_or]
      · right
        rw [← Nat.add_assoc, Nat.succ_div, if_neg hedge]
        exact hsame

/-- The line is raised by the time of clock `m`. -/
theorem rings {m : Nat} (h : Reachable Init Next s) (hle : s.clocks ≤ m)
    (hends : s.clocks / 11931 < m / 11931) :
    ∃ pit, Reachable Init Next ⟨s.kernel, pit, true, m, s.askedAt⟩ := by
  rcases clocks_pass (m - s.clocks) h with ⟨pit, irq, hreach, hirq⟩
  rw [Nat.add_sub_cancel' hle] at hreach hirq
  rcases hirq with rfl | hsame
  · exact ⟨pit, hreach⟩
  · omega

/-- Thread 2 waits for its deadline, and `j` ticks have passed since its call. -/
structure Asleep (c : SleepCall) (j : Nat) (k : Clocked) : Prop where
  sched : k.run.sched = Clocked.asleepSched
  pc : k.run.pc 2 = .own
  stage : k.stage 2 = .own
  timer : k.timer = ⟨j, [⟨2, c.need⟩]⟩
  beats : k.beats = j
  asked : k.asked 2 = some (0, c)

/-- Thread 2 has been made and runs, and a request waits. -/
theorem ready {m : Nat} (hm : 11931 ≤ m) :
    ∃ pit askedAt, Reachable Init Next ⟨Clocked.sleeper 0, pit, true, m, askedAt⟩ := by
  have h₀ : Reachable Init Next
      ⟨Clocked.booted, Channel.outbs pitInit ⟨.both, 0, false, none, 0, false, 0⟩, false, 0,
        fun _ => 0⟩ := .init ⟨Clocked.init_booted, _, rfl⟩
  have h₁ := h₀.step (.kernel (@Clocked.Next.threadCreate Clocked.booted 1 2 0x2000 0 none
    ⟨rfl, rfl, rfl⟩ (by simp [Clocked.booted])) rfl rfl)
  have h₂ := h₁.step (@Next.kernel _ (Clocked.sleeper 0) (@Clocked.Next.schedule _ 1 _ rfl) rfl rfl)
  rcases @rings _ m h₂ (Nat.zero_le m) (by dsimp only; omega) with ⟨pit, h₃⟩
  exact ⟨pit, _, h₃⟩

/-- It calls, and sleeps. -/
theorem falls_asleep {m : Nat} {pit : Channel} {askedAt : Tid → Nat} (hfits : c.Fits 0)
    (hneed : 0 < c.need)
    (h : Reachable Init Next ⟨Clocked.sleeper 0, pit, true, m, askedAt⟩) :
    ∃ k askedAt, Reachable Init Next ⟨k, pit, true, m, askedAt⟩ ∧ Asleep c 0 k ∧
      askedAt 2 = m := by
  have hdeadline : c.deadline 0 = c.need := hfits.deadline.trans (Nat.zero_add _)
  have hlocked : sleepUntilLocked true 2 (c.deadline 0) ⟨0, []⟩ =
      (.sleep, ⟨0, [⟨2, c.deadline 0⟩]⟩) := by
    apply if_neg
    rw [hdeadline]
    exact Nat.not_le_of_lt hneed
  have hcalls : (Clocked.sleeper 0).Calls 2 := by
    refine ⟨⟨rfl, rfl, rfl⟩, ?_, rfl⟩
    intro hidle
    cases hidle
  have h₁ := h.step (.readTicks c hcalls)
  have h₂ := h₁.step (.kernel (.sleepUntil rfl rfl hlocked) rfl rfl)
  have h₃ := h₂.step (.kernel (@Clocked.Next.threadBlock _ 2 rfl rfl) rfl rfl)
  have h₄ := h₃.step (.kernel (@Clocked.Next.threadBlockReturn _ 2 1 _ rfl rfl rfl) rfl rfl)
  refine ⟨_, _, h₄, ⟨rfl, rfl, rfl, ?_, rfl, rfl⟩, rfl⟩
  rw [← hdeadline]
  rfl

/-- A tick before the deadline. -/
theorem Asleep.tick {j m : Nat} {k : Clocked} {pit : Channel} {askedAt : Tid → Nat}
    (h : Asleep c j k) (hj : j + 1 < c.need) (hsmall : c.need < 2 ^ 64)
    (hreach : Reachable Init Next ⟨k, pit, true, m, askedAt⟩) :
    ∃ k', Reachable Init Next ⟨k', pit, false, m, askedAt⟩ ∧ Asleep c (j + 1) k' := by
  have hahead : ∀ e ∈ [(⟨2, c.need⟩ : TimerEntry)], j + 1 < e.deadline := by
    intro e he
    rw [List.mem_singleton.mp he]
    exact hj
  have htick : timerTick 0 k.timer k.run.sched =
      some (⟨j + 1, [⟨2, c.need⟩]⟩, Clocked.asleepSched) := by
    rw [h.timer, h.sched]
    simp only [timerTick, Nat.mod_eq_of_lt (hj.trans hsmall), expire_of_ahead hahead,
      Option.map_some]
  refine ⟨_, hreach.step (.tick rfl htick), rfl, h.pc, h.stage, rfl, ?_, h.asked⟩
  show k.beats + 1 = j + 1
  rw [h.beats]

/-- The ticks before the deadline: the first takes the request that waits, and each of the others
comes with the end of a period. -/
theorem ticks_pass {k : Clocked} {pit : Channel} {askedAt : Tid → Nat} (h : Asleep c 0 k)
    (hsmall : c.need < 2 ^ 64)
    (hreach : Reachable Init Next ⟨k, pit, true, 23861, askedAt⟩) (j : Nat) (hj : j + 1 < c.need) :
    ∃ k pit, Reachable Init Next ⟨k, pit, false, max 23861 ((j + 1) * 11931), askedAt⟩ ∧
      Asleep c (j + 1) k := by
  induction j with
  | zero =>
    rcases h.tick hj hsmall hreach with ⟨k', hreach', hasleep⟩
    exact ⟨k', pit, hreach', hasleep⟩
  | succ j ih =>
    rcases ih (by omega) with ⟨k, pit, hreach, hasleep⟩
    have hm : max 23861 ((j + 1 + 1) * 11931) = (j + 1 + 1) * 11931 := by omega
    rw [hm]
    rcases @rings _ ((j + 1 + 1) * 11931) hreach (by dsimp only; omega) (by dsimp only; omega) with
      ⟨pit', hrings⟩
    rcases hasleep.tick hj hsmall hrings with ⟨k', hreach', hasleep'⟩
    exact ⟨k', pit', hreach', hasleep'⟩

/-- The last tick. -/
theorem Asleep.wakes {m : Nat} {k : Clocked} {pit : Channel} {askedAt : Tid → Nat}
    (h : Asleep c (c.need - 1) k) (hneed : 0 < c.need) (hsmall : c.need < 2 ^ 64)
    (hreach : Reachable Init Next ⟨k, pit, true, m, askedAt⟩) :
    ∃ k', Reachable Init Next ⟨k', pit, false, m, askedAt⟩ ∧ k'.asked 2 = some (0, c) ∧
      k'.Resumed 2 := by
  have htick : timerTick 1 k.timer k.run.sched =
      (threadUnblock 1 2 Clocked.asleepSched).map fun q => (⟨c.need, []⟩, q) := by
    rw [h.timer, h.sched]
    simp only [timerTick, Nat.sub_add_cancel hneed, Nat.mod_eq_of_lt hsmall, expire, Nat.le_refl,
      if_true]
    rfl
  have hdue := hreach.step (.tick rfl htick)
  have hback := hdue.step (.kernel (@Clocked.Next.schedule _ 1 _ rfl) rfl rfl)
  exact ⟨_, hback, h.asked, rfl, h.pc, h.stage⟩

/-- How many clocks can pass between a call and the time that its thread is back, if the
deadline does not wrap. -/
def durations (c : SleepCall) : Set Nat :=
  {d | ∃ s t b, Reachable Init Next s ∧ s.kernel.asked t = some (b, c) ∧ c.Fits (b % 2 ^ 64) ∧
    s.kernel.Resumed t ∧ d = s.clocks - s.askedAt t}

/-- Over all runs of the kernel, the shortest time that a call for two ticks or more takes is two
periods of the timer less than it asks for, and a clock. -/
theorem sleep_shortest (c : SleepCall) (hfits : c.Fits 0) (hneed : 2 ≤ c.need) :
    IsLeast (durations c) ((c.need - 2) * 11931 + 1) := by
  have hsmall : c.need < 2 ^ 64 := by
    have hdeadline : c.deadline 0 < 2 ^ 64 := SleepCall.deadline_lt
    rw [hfits.deadline, Nat.zero_add] at hdeadline
    exact hdeadline
  constructor
  · rcases @ready 23861 (by decide) with ⟨pit, askedAt, hready⟩
    rcases falls_asleep hfits (by omega) hready with ⟨k, askedAt, hreach, hasleep, hasked⟩
    rcases ticks_pass hasleep hsmall hreach (c.need - 2) (by omega) with ⟨k, pit, hreach, hasleep⟩
    rw [show c.need - 2 + 1 = c.need - 1 by omega] at hreach hasleep
    rcases @rings _ (c.need * 11931) hreach (by dsimp only; omega) (by dsimp only; omega) with
      ⟨pit, hrings⟩
    rcases hasleep.wakes (by omega) hsmall hrings with ⟨k, hback, hcall, hresumed⟩
    refine ⟨_, 2, 0, hback, hcall, hfits, hresumed, ?_⟩
    dsimp only
    rw [hasked]
    omega
  · rintro d ⟨s, t, b, hreach, hasked, hfitsb, hresumed, rfl⟩
    exact resumed_clocks hreach hasked hfitsb hresumed hneed

/-- A second has 1193182 clocks. -/
theorem sleep_shortest_second :
    IsLeast (durations (.sleep 1)) 1169239 ∧ 1169239 < 1193182 :=
  ⟨sleep_shortest (.sleep 1) (by decide : 0 + 100 * 1 < 2 ^ 64) (by decide), by decide⟩

end Attained

end OnClock

end Orchid
