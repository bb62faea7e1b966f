import Orchid.Core.Rules
import Orchid.Scheduler.Timer

/-! # The interrupt flag and the timer interrupt

`isr_handler` calls `schedule` in the middle of a timer interrupt, with the
interrupt flag clear and the interrupt not yet acknowledged; both are put right
after `schedule` has returned, that is, when the interrupted thread is next
switched to. `__switch_to` changes neither.

* `frames` are the interrupts a thread is inside of: the flag its `iretq` will
  restore, and whether the end of interrupt has been written. A thread with no
  frame is in its own code.
* A thread that was never run, or that called `schedule` itself, has no frame.
  If a timer interrupt switches to it, it goes on in its own code with the
  interrupt flag clear and IRQ0 in service.
* If timer interrupts only switch to threads that are inside one, every thread
  has interrupts enabled in its own code.
-/

namespace Orchid

open Machine Function

/-- An interrupt that a thread has yet to return from. -/
structure HandlerFrame where
  savedIf : Bool
  acked : Bool
  deriving DecidableEq, Repr

/-- The scheduler, the timer, the interrupt flag and the in-service bit of IRQ0. -/
structure Preemptive where
  sched : Sched
  timer : Timer
  intFlag : Bool
  inService : Bool
  frames : Tid → List HandlerFrame

namespace Preemptive

/-- Overwrite the frames of `t`. -/
def setFrames (w : Preemptive) (t : Tid) (fs : List HandlerFrame) : Preemptive :=
  { w with frames := update w.frames t fs }

/-- A timer interrupt, up to the switch: the gate clears the flag, then
`timer_tick` and `schedule` run. It is delivered only with the flag set and
no other one in service. -/
def interrupt (fuel : Nat) (cur : Tid) (w : Preemptive) : Option Preemptive :=
  if w.intFlag = true ∧ w.inService = false then
    match timerTick fuel w.timer w.sched with
    | none => none
    | some (timer, s) => (schedule fuel s).map fun q =>
      { w.setFrames cur (⟨w.intFlag, false⟩ :: w.frames cur) with
        sched := q
        timer := timer
        intFlag := false
        inService := true }
  else none

/-- The write of the end of interrupt, after `schedule` has returned. -/
def eoi (cur : Tid) (w : Preemptive) : Option Preemptive :=
  match w.frames cur with
  | ⟨savedIf, false⟩ :: rest =>
    some { w.setFrames cur (⟨savedIf, true⟩ :: rest) with inService := false }
  | _ => none

/-- The end of the handler. -/
def iretq (cur : Tid) (w : Preemptive) : Option Preemptive :=
  match w.frames cur with
  | ⟨savedIf, true⟩ :: rest => some { w.setFrames cur rest with intFlag := savedIf }
  | _ => none

/-- A call of `schedule` from a thread's own code, after `mark`. -/
def voluntary (mark : Sched → Sched) (fuel : Nat) (cur : Tid) (w : Preemptive) :
    Option Preemptive :=
  if w.frames cur = [] then
    (schedule fuel (mark w.sched)).map fun q => { w with sched := q }
  else none

/-- What can happen next. -/
inductive Act where
  | interrupt (fuel : Nat)
  | eoi
  | iretq
  | yield (fuel : Nat)
  | threadBlock (fuel : Nat)
  | threadExit (fuel : Nat)
  | threadCreate (t : Tid) (stack cr3 : Nat) (proc : Option ProcPtr)

/-- The state after it; `none` if it cannot happen or does not return. -/
def step (w : Preemptive) (a : Act) : Option Preemptive :=
  match w.sched.currentThread with
  | none => none
  | some cur =>
    match a with
    | .interrupt fuel => w.interrupt fuel cur
    | .eoi => w.eoi cur
    | .iretq => w.iretq cur
    | .yield fuel => w.voluntary id fuel cur
    | .threadBlock fuel => w.voluntary threadBlockMark fuel cur
    | .threadExit fuel => w.voluntary threadExitMark fuel cur
    | .threadCreate t stack cr3 proc =>
      -- the record of a new thread is not the current thread's
      if t = cur then none else
      some { w.setFrames t [] with sched := Orchid.threadCreate t stack cr3 proc w.sched }

/-- After `enable_interrupts`: no thread is inside an interrupt. -/
def Init : StatePred Preemptive := fun w =>
  w.intFlag = true ∧ w.inService = false ∧ ∀ t, w.frames t = []

def Next : Action Preemptive := fun w w' => ∃ a, w.step a = some w'

/-- In its own code, the current thread can be preempted. -/
def Armed (w : Preemptive) : Prop :=
  ∀ t, w.sched.currentThread = some t → w.frames t = [] → w.intFlag = true ∧ w.inService = false

/-- The sleeper that a timer interrupt wakes first. -/
def firstDue (w : Preemptive) : Option Tid :=
  (w.timer.queue.find? fun e =>
    e.deadline ≤ (w.timer.ticks + 1) % 2 ^ 64 ∧ w.sched.state e.thread = .blocked).map (·.thread)

/-- The thread that a timer interrupt switches to: the head of the queue, or a sleeper that is due,
or the idle thread. -/
def upNext (w : Preemptive) : Option Tid :=
  (w.sched.readyQueue.or w.firstDue).or w.sched.idleThreadPtr

/-- If `a` is a timer interrupt, the thread it switches to is the interrupted one, or inside an
interrupt already. -/
def SwitchesInside (a : Act) (w : Preemptive) : Prop :=
  ∀ fuel t, a = .interrupt fuel → w.upNext = some t →
    w.sched.currentThread = some t ∨ w.frames t ≠ []

def NextInside : Action Preemptive := fun w w' => ∃ a, w.step a = some w' ∧ SwitchesInside a w

/-! ## The thread that is switched to -/

section UpNext

variable {w w' : Preemptive} {s s' : Sched} {t cur : Tid} {fuel : Nat}

theorem enqueueTail_head (h : enqueueTail fuel t s = some s') :
    s'.readyQueue = s.readyQueue.or (some t) ∧ s'.idleThreadPtr = s.idleThreadPtr ∧
      s'.currentThread = s.currentThread := by
  unfold enqueueTail at h
  dsimp only at h
  split at h
  · next hqueue =>
    cases h
    rw [show s.readyQueue = none from hqueue]
    exact ⟨rfl, rfl, rfl⟩
  · next head hqueue =>
    split at h
    · cases h
    · cases h
      rw [show s.readyQueue = some head from hqueue]
      exact ⟨hqueue, rfl, rfl⟩

theorem threadUnblock_head (h : threadUnblock fuel t s = some s') :
    s'.readyQueue = s.readyQueue.or (if s.state t = .blocked then some t else none) ∧
      s'.idleThreadPtr = s.idleThreadPtr ∧ s'.currentThread = s.currentThread := by
  unfold threadUnblock at h
  split at h
  · next hblocked =>
    have hhead := enqueueTail_head h
    rw [if_pos hblocked]
    exact hhead
  · next hblocked =>
    cases h
    rw [if_neg hblocked, Option.or_none]
    exact ⟨rfl, rfl, rfl⟩

/-- The head of the queue stays, or is the first sleeper that is due. -/
theorem expire_head {ticks : Nat} {q q' : List TimerEntry} (h : expire fuel ticks q s = some (q', s')) :
    s'.readyQueue = s.readyQueue.or ((q.find? fun e =>
        e.deadline ≤ ticks ∧ s.state e.thread = .blocked).map (·.thread)) ∧
      s'.idleThreadPtr = s.idleThreadPtr ∧ s'.currentThread = s.currentThread := by
  induction q generalizing s q' with
  | nil =>
    cases h
    rw [List.find?_nil, Option.map_none, Option.or_none]
    exact ⟨rfl, rfl, rfl⟩
  | cons e q ih =>
    unfold expire at h
    split at h
    · next hdue =>
      split at h
      · cases h
      next s₁ hunblock =>
      rcases threadUnblock_head hunblock with ⟨hhead, hidle, hcur⟩
      rcases ih h with ⟨hhead', hidle', hcur'⟩
      refine ⟨?_, hidle'.trans hidle, hcur'.trans hcur⟩
      by_cases hblocked : s.state e.thread = .blocked
      · -- the queue is not empty from then on
        rw [hhead', hhead, if_pos hblocked, Option.or_assoc, Option.some_or,
          List.find?_cons_of_pos (by simp [hdue, hblocked]), Option.map_some]
      · obtain rfl : s = s₁ := by
          rw [threadUnblock, if_neg hblocked] at hunblock
          exact Option.some.inj hunblock
        rw [hhead', List.find?_cons_of_neg (by simp [hblocked])]
    · next hlate =>
      rcases Option.map_eq_some_iff.mp h with ⟨⟨q₁, s₁⟩, hexpire, heq⟩
      cases heq
      rw [List.find?_cons_of_neg (by simp [hlate])]
      exact ih hexpire

/-- `schedule` dispatches the head of the queue, or the idle thread. -/
theorem schedule_current (hcur : s.currentThread = some cur) (h : schedule fuel s = some s') :
    s'.currentThread = s.readyQueue.or s.idleThreadPtr := by
  unfold schedule at h
  rw [hcur] at h
  dsimp only at h
  split at h
  · cases h
  · rcases Option.map_eq_some_iff.mp h with ⟨n, hn, rfl⟩
    unfold pickNext at hn
    cases hqueue : s.readyQueue with
    | none =>
      rw [hqueue] at hn
      exact hn.symm
    | some t =>
      rw [hqueue] at hn
      exact hn.symm

theorem interrupt_current (hcur : w.sched.currentThread = some cur)
    (h : w.interrupt fuel cur = some w') :
    w'.sched.currentThread = w.upNext ∧
      w'.frames = update w.frames cur (⟨w.intFlag, false⟩ :: w.frames cur) := by
  unfold interrupt at h
  split at h
  · split at h
    · cases h
    next timer s htick =>
    rcases Option.map_eq_some_iff.mp h with ⟨q, hsched, rfl⟩
    rcases timerTick_cases htick with ⟨hticks, hexpire⟩
    rcases expire_head hexpire with ⟨hhead, hidle, hsame⟩
    refine ⟨?_, rfl⟩
    rw [hticks] at hhead
    show q.currentThread = _
    rw [schedule_current (hsame.trans hcur) hsched, hhead, hidle]
    rfl
  · cases h

/-- After a timer interrupt that switches inside, the current thread is inside one. -/
theorem interrupt_inside (hcur : w.sched.currentThread = some cur)
    (h : w.interrupt fuel cur = some w') :
    SwitchesInside (.interrupt fuel) w ↔
      ∀ t, w'.sched.currentThread = some t → w'.frames t ≠ [] := by
  rcases interrupt_current hcur h with ⟨hnext, hframes⟩
  rw [hnext, hframes]
  constructor
  · intro hinside t ht
    by_cases htcur : t = cur
    · rw [htcur, update_self]
      exact List.cons_ne_nil _ _
    · rw [update_of_ne htcur]
      rcases hinside fuel t rfl ht with heq | hne
      · exact absurd (Option.some.inj (heq.symm.trans hcur)) htcur
      · exact hne
  · intro hall fuel' t _ ht
    by_cases htcur : t = cur
    · exact Or.inl (htcur ▸ hcur)
    · have hne := hall t ht
      rw [update_of_ne htcur] at hne
      exact Or.inr hne

end UpNext

/-! ## Runs that only switch inside -/

section Runs

variable {w w' : Preemptive} {a : Act} {cur : Tid} {fuel : Nat}

/-- Who waits inside an interrupt has its end of interrupt still to write; who
has written it, or is in its own code, leaves none in service. -/
structure Inv (w : Preemptive) : Prop where
  saved : ∀ t, ∀ f ∈ w.frames t, f.savedIf = true
  waiting : ∀ t, w.sched.currentThread ≠ some t → ∀ f ∈ (w.frames t).head?, f.acked = false
  acked : ∀ t, w.sched.currentThread = some t → (∀ f ∈ (w.frames t).head?, f.acked = true) →
    w.inService = false
  enabled : ∀ t, w.sched.currentThread = some t → w.frames t = [] → w.intFlag = true

theorem Inv.armed (h : w.Inv) : w.Armed := by
  intro t ht hown
  refine ⟨h.enabled t ht hown, h.acked t ht ?_⟩
  rw [hown]
  intro f hf
  cases hf

theorem init_inv (h : Init w) : w.Inv := by
  rcases h with ⟨hflag, hservice, hframes⟩
  refine ⟨?_, ?_, fun _ _ _ => hservice, fun _ _ _ => hflag⟩
  · intro t f hf
    rw [hframes t] at hf
    cases hf
  · intro t _ f hf
    rw [hframes t] at hf
    cases hf

/-- A new frame on top of the interrupted thread's. -/
theorem interrupt_inv (h : w.Inv) (hcur : w.sched.currentThread = some cur)
    (hstep : w.interrupt fuel cur = some w')
    (hinside : ∀ t, w'.sched.currentThread = some t → w'.frames t ≠ []) : w'.Inv := by
  unfold interrupt at hstep
  split at hstep
  · next hdelivered =>
    split at hstep
    · cases hstep
    next timer s htick =>
    rcases Option.map_eq_some_iff.mp hstep with ⟨q, hsched, rfl⟩
    have hself : update w.frames cur (⟨w.intFlag, false⟩ :: w.frames cur) cur =
        ⟨w.intFlag, false⟩ :: w.frames cur := update_self ..
    have hothers : ∀ t, t ≠ cur →
        update w.frames cur (⟨w.intFlag, false⟩ :: w.frames cur) t = w.frames t :=
      fun t ht => update_of_ne ht _ _
    have hunacked : ∀ t, ∀ f ∈ (update w.frames cur
        (⟨w.intFlag, false⟩ :: w.frames cur) t).head?, f.acked = false := by
      intro t f hf
      by_cases ht : t = cur
      · rw [ht, hself] at hf
        cases hf
        rfl
      · rw [hothers t ht] at hf
        exact h.waiting t (fun heq => ht (Option.some.inj (heq.symm.trans hcur))) f hf
    refine ⟨?_, fun t _ => hunacked t, ?_, ?_⟩
    · intro t f hf
      by_cases ht : t = cur
      · -- interrupts are delivered with the flag set
        simp only [setFrames, ht, hself] at hf
        rcases List.mem_cons.mp hf with rfl | hf
        · exact hdelivered.1
        · exact h.saved cur f hf
      · simp only [setFrames, hothers t ht] at hf
        exact h.saved t f hf
    · intro t ht hall
      -- the thread switched to is inside, and has not written its end of interrupt
      exfalso
      rcases List.exists_cons_of_ne_nil (hinside t ht) with ⟨f, fs, hfs⟩
      have hf : f ∈ (update w.frames cur
          (⟨w.intFlag, false⟩ :: w.frames cur) t).head? := by
        simp only [setFrames] at hfs
        rw [hfs]
        rfl
      have htrue := hall f hf
      rw [hunacked t f hf] at htrue
      cases htrue
    · intro t ht hown
      exact absurd hown (hinside t ht)
  · cases hstep

/-- Only the frames of the current thread change. -/
theorem setFrames_waiting (h : w.Inv) (hcur : w.sched.currentThread = some cur)
    (fs : List HandlerFrame) (t : Tid) (ht : w.sched.currentThread ≠ some t) :
    ∀ f ∈ ((w.setFrames cur fs).frames t).head?, f.acked = false := by
  have hne : t ≠ cur := fun heq => ht (heq ▸ hcur)
  intro f hf
  simp only [setFrames, update_of_ne hne] at hf
  exact h.waiting t ht f hf

theorem eoi_inv (h : w.Inv) (hcur : w.sched.currentThread = some cur)
    (hstep : w.eoi cur = some w') : w'.Inv := by
  unfold eoi at hstep
  split at hstep
  · next savedIf rest hframes =>
    cases hstep
    refine ⟨?_, setFrames_waiting h hcur _, fun _ _ _ => rfl, ?_⟩
    · intro t f hf
      by_cases ht : t = cur
      · simp only [setFrames, ht, update_self] at hf
        rcases List.mem_cons.mp hf with rfl | hf
        · exact h.saved cur ⟨savedIf, false⟩ (by rw [hframes]; exact List.mem_cons_self)
        · exact h.saved cur f (by rw [hframes]; exact List.mem_cons_of_mem _ hf)
      · simp only [setFrames, update_of_ne ht] at hf
        exact h.saved t f hf
    · intro t ht hown
      have heq : t = cur := Option.some.inj (ht.symm.trans hcur)
      simp [setFrames, heq] at hown
  · cases hstep

theorem iretq_inv (h : w.Inv) (hcur : w.sched.currentThread = some cur)
    (hstep : w.iretq cur = some w') : w'.Inv := by
  unfold iretq at hstep
  split at hstep
  · next savedIf rest hframes =>
    cases hstep
    have hservice : w.inService = false := by
      apply h.acked cur hcur
      intro f hf
      rw [hframes] at hf
      cases hf
      rfl
    have hsaved : savedIf = true :=
      h.saved cur ⟨savedIf, true⟩ (by rw [hframes]; exact List.mem_cons_self)
    refine ⟨?_, setFrames_waiting h hcur _, fun _ _ _ => hservice, fun _ _ _ => hsaved⟩
    intro t f hf
    by_cases ht : t = cur
    · simp only [setFrames, ht, update_self] at hf
      exact h.saved cur f (by rw [hframes]; exact List.mem_cons_of_mem _ hf)
    · simp only [setFrames, update_of_ne ht] at hf
      exact h.saved t f hf
  · cases hstep

/-- From its own code a thread switches with the flag set and nothing in
service. -/
theorem voluntary_inv {mark : Sched → Sched} (h : w.Inv) (hcur : w.sched.currentThread = some cur)
    (hstep : w.voluntary mark fuel cur = some w') : w'.Inv := by
  unfold voluntary at hstep
  split at hstep
  · next hown =>
    rcases Option.map_eq_some_iff.mp hstep with ⟨q, -, rfl⟩
    rcases h.armed cur hcur hown with ⟨hflag, hservice⟩
    refine ⟨h.saved, ?_, fun _ _ _ => hservice, fun _ _ _ => hflag⟩
    intro t _ f hf
    by_cases ht : t = cur
    · simp only [ht, hown] at hf
      cases hf
    · exact h.waiting t (fun heq => ht (Option.some.inj (heq.symm.trans hcur))) f hf
  · cases hstep

theorem threadCreate_inv {t : Tid} {stack cr3 : Nat} {proc : Option ProcPtr} (h : w.Inv)
    (hcur : w.sched.currentThread = some cur) (hne : t ≠ cur) :
    { w.setFrames t [] with sched := Orchid.threadCreate t stack cr3 proc w.sched : Preemptive }.Inv := by
  have hkept : ∀ u, (w.setFrames t []).frames u = [] ∨
      (w.setFrames t []).frames u = w.frames u := by
    intro u
    by_cases hu : u = t
    · left
      simp [setFrames, hu]
    · right
      simp [setFrames, hu]
  have hself : (w.setFrames t []).frames cur = w.frames cur :=
    update_of_ne hne.symm _ _
  refine ⟨?_, ?_, ?_, ?_⟩
  · intro u f hf
    rcases hkept u with hu | hu <;> simp only [hu] at hf
    · cases hf
    · exact h.saved u f hf
  · intro u hu f hf
    rcases hkept u with hframes | hframes <;> simp only [hframes] at hf
    · cases hf
    · exact h.waiting u hu f hf
  · intro u hu hall
    have heq : u = cur := Option.some.inj (hu.symm.trans hcur)
    subst heq
    simp only [hself] at hall
    exact h.acked u hcur hall
  · intro u hu hown
    have heq : u = cur := Option.some.inj (hu.symm.trans hcur)
    subst heq
    simp only [hself] at hown
    exact h.enabled u hcur hown

theorem step_inv (h : w.Inv) (hnext : NextInside w w') : w'.Inv := by
  rcases hnext with ⟨a, hstep, hinside⟩
  unfold step at hstep
  split at hstep
  · cases hstep
  next cur hcur =>
  cases a with
  | interrupt fuel => exact interrupt_inv h hcur hstep ((interrupt_inside hcur hstep).mp hinside)
  | eoi => exact eoi_inv h hcur hstep
  | iretq => exact iretq_inv h hcur hstep
  | yield fuel => exact voluntary_inv h hcur hstep
  | threadBlock fuel => exact voluntary_inv h hcur hstep
  | threadExit fuel => exact voluntary_inv h hcur hstep
  | threadCreate t stack cr3 proc =>
    simp only at hstep
    split at hstep
    · cases hstep
    · next hne =>
      cases hstep
      exact threadCreate_inv h hcur hne

/-- A timer interrupt leaves the flag clear. -/
theorem interrupt_intFlag (h : w.interrupt fuel cur = some w') : w'.intFlag = false := by
  unfold interrupt at h
  split at h
  · split at h
    · cases h
    · rcases Option.map_eq_some_iff.mp h with ⟨q, -, rfl⟩
      rfl
  · cases h

/-- In every run whose timer interrupts switch to threads inside one, threads can
be preempted in their own code; and the first interrupt that does not leads to
one that cannot. -/
theorem armed_iff_inside (h : Reachable Init NextInside w) :
    w.Armed ∧ ∀ a w', w.step a = some w' → (w'.Armed ↔ SwitchesInside a w) := by
  have hinv : w.Inv := h.invariant (fun _ => init_inv) fun _ _ hnext hinv => step_inv hinv hnext
  refine ⟨hinv.armed, fun a w' hstep => ⟨?_, ?_⟩⟩
  · rintro harmed fuel t rfl ht
    have hcall := hstep
    unfold step at hcall
    split at hcall
    · cases hcall
    next cur hcur =>
    refine (interrupt_inside hcur hcall).mpr ?_ fuel t rfl ht
    intro u hu hown
    have hflag := (harmed u hu hown).1
    rw [interrupt_intFlag hcall] at hflag
    cases hflag
  · intro hinside
    exact (step_inv hinv ⟨a, hstep, hinside⟩).armed

/-- The idle thread 1 in its loop. -/
def booted : Preemptive where
  sched :=
    { threads := fun _ => ⟨0, 0, .ready, 0, 0, none, none⟩
      currentThread := some 1
      readyQueue := none
      idleThreadPtr := some 1
      threadCount := 1
      currentProcess := none
      rsp0 := 0 }
  timer := ⟨0, []⟩
  intFlag := true
  inService := false
  frames := fun _ => []

/-- With no other thread, the interrupt comes back to the idle thread. -/
theorem armed_iff_inside_booted :
    ∃ w : Preemptive, Reachable Init NextInside w ∧ w.timer.ticks = 1 ∧ w.intFlag = true ∧
      w.Armed := by
  have hother : ∀ (a : Act) (w : Preemptive), (∀ fuel, a ≠ .interrupt fuel) → SwitchesInside a w :=
    fun a w ha fuel t heq => absurd heq (ha fuel)
  have hrun : Reachable Init NextInside _ :=
    .step (.step (.step (.init (⟨rfl, rfl, fun _ => rfl⟩ : Init booted))
      ⟨.interrupt 0, rfl, fun _ t _ ht => Or.inl ht⟩)
      ⟨.eoi, rfl, hother _ _ fun _ heq => by cases heq⟩)
      ⟨.iretq, rfl, hother _ _ fun _ heq => by cases heq⟩
  exact ⟨_, hrun, rfl, rfl, (armed_iff_inside hrun).1⟩

/-- The first timer interrupt starts thread 2 in its own code, with interrupts
disabled and the interrupt unacknowledged. -/
theorem interrupt_disarms :
    ∃ w : Preemptive, Reachable Init Next w ∧ w.sched.currentThread = some 2 ∧ w.frames 2 = [] ∧
      w.intFlag = false ∧ w.inService = true ∧ ¬ w.Armed := by
  have hrun : Reachable Init Next _ :=
    .step (.step (.init (⟨rfl, rfl, fun _ => rfl⟩ : Init booted))
      ⟨.threadCreate 2 0x3000 0 none, rfl⟩)
      ⟨.interrupt 1, rfl⟩
  refine ⟨_, hrun, rfl, rfl, rfl, rfl, ?_⟩
  intro harmed
  have hflag := (harmed 2 rfl rfl).1
  cases hflag

end Runs

end Preemptive

end Orchid
