import Orchid.Core.Rules
import Mathlib.Data.Set.Basic
import Mathlib.Logic.Function.Basic

/-! # Spinlocks: lock programs, a rank discipline and the threads that run them

An operation is described by the lock steps it takes on each of its paths: a
small language with branches and loops whose meaning is a set of step
sequences. The locks carry ranks. A program that requests a lock only below
everything it holds, and gives back what it took, is orderly. The rules to
show that follow the program text. Threads that run orderly programs one
after another never wait for each other in a circle.
-/

namespace SpinLock

open Machine Function Relation

variable {L T : Type*}

/-- One step on the locks. -/
inductive Act (L : Type*) where
  /-- Take the lock, spinning while its word is set. -/
  | lock (l : L)
  /-- Release the lock. -/
  | unlock (l : L)
  /-- A plain store of zero to the lock's word, by code that need not hold
  it. -/
  | clear (l : L)
  /-- Leave the processor to another thread. -/
  | switch
  deriving DecidableEq, Repr

/-- The lock steps of an operation; `skip` is its return. -/
inductive Prog (L : Type*) where
  | skip
  | act (a : Act L)
  | seq (p q : Prog L)
  | alt (p q : Prog L)
  | loop (p : Prog L)

namespace Prog

/-- Take a lock and go on with `p`. -/
def lock (l : L) (p : Prog L) : Prog L := .seq (.act (.lock l)) p

/-- Release a lock and go on with `p`. -/
def unlock (l : L) (p : Prog L) : Prog L := .seq (.act (.unlock l)) p

/-- The step sequences of a program: one for each choice of branches and
numbers of rounds. -/
inductive Trace : Prog L → List (Act L) → Prop where
  | skip : Trace .skip []
  | act (a : Act L) : Trace (.act a) [a]
  | seq {p q : Prog L} {xs ys : List (Act L)} :
      Trace p xs → Trace q ys → Trace (.seq p q) (xs ++ ys)
  | left {p q : Prog L} {xs : List (Act L)} : Trace p xs → Trace (.alt p q) xs
  | right {p q : Prog L} {xs : List (Act L)} : Trace q xs → Trace (.alt p q) xs
  | done {p : Prog L} : Trace (.loop p) []
  | again {p : Prog L} {xs ys : List (Act L)} :
      Trace p xs → Trace (.loop p) ys → Trace (.loop p) (xs ++ ys)

theorem Trace.lock {l : L} {p : Prog L} {xs : List (Act L)} (h : Trace p xs) :
    Trace (.lock l p) (.lock l :: xs) := .seq (.act _) h

theorem Trace.unlock {l : L} {p : Prog L} {xs : List (Act L)} (h : Trace p xs) :
    Trace (.unlock l p) (.unlock l :: xs) := .seq (.act _) h

end Prog

section Holding

variable [DecidableEq L]

/-- What a thread holds after the step. -/
def Act.hold : Act L → List L → List L
  | .lock l, held => l :: held
  | .unlock l, held => held.erase l
  | .clear _, held => held
  | .switch, held => held

/-- What a thread holds after the steps. -/
def holding (xs : List (Act L)) (held : List L) : List L :=
  xs.foldl (fun h a => a.hold h) held

@[simp] theorem holding_nil (held : List L) : holding [] held = held := rfl

@[simp] theorem holding_cons (a : Act L) (xs : List (Act L)) (held : List L) :
    holding (a :: xs) held = holding xs (a.hold held) := rfl

@[simp] theorem holding_append (xs ys : List (Act L)) (held : List L) :
    holding (xs ++ ys) held = holding ys (holding xs held) :=
  List.foldl_append

variable (rank : L → ℕ)

/-- Every lock held has a rank above `b`. -/
def Above (b : ℕ) (held : List L) : Prop := ∀ l ∈ held, b < rank l

variable {rank}

omit [DecidableEq L] in
theorem above_nil (b : ℕ) : Above rank b [] := by simp [Above]

omit [DecidableEq L] in
theorem Above.cons {b : ℕ} {l : L} {held : List L} (hl : b < rank l)
    (h : Above rank b held) : Above rank b (l :: held) := by
  simpa [Above] using ⟨hl, h⟩

omit [DecidableEq L] in
theorem Above.mono {b c : ℕ} {held : List L} (h : Above rank b held)
    (hcb : c ≤ b) : Above rank c held :=
  fun l hl => lt_of_le_of_lt hcb (h l hl)

omit [DecidableEq L] in
theorem Above.notMem {l : L} {held : List L} (h : Above rank (rank l) held) :
    l ∉ held := fun hl => lt_irrefl _ (h l hl)

variable (rank)

/-- The discipline of one step: a lock is requested below everything held,
only a held lock is released, none that is held is cleared, and the processor
is left with nothing held. -/
def Act.Ok : Act L → List L → Prop
  | .lock l, held => Above rank (rank l) held
  | .unlock l, held => l ∈ held
  | .clear l, held => l ∉ held
  | .switch, held => held = []

/-- The discipline along a sequence of steps. -/
def Obeys : List (Act L) → List L → Prop
  | [], _ => True
  | a :: xs, held => a.Ok rank held ∧ Obeys xs (a.hold held)

variable {rank}

theorem obeys_append {xs ys : List (Act L)} {held : List L} :
    Obeys rank (xs ++ ys) held ↔ Obeys rank xs held ∧ Obeys rank ys (holding xs held) := by
  induction xs generalizing held with
  | nil => simp [Obeys]
  | cons a xs ih => simp [Obeys, ih, and_assoc]

end Holding

/-! ## Rules for programs -/

namespace Prog

variable [DecidableEq L] (rank : L → ℕ)

/-- Every path of the program, started with `held`, keeps the discipline and
ends with `held'`. -/
def Triple (p : Prog L) (held held' : List L) : Prop :=
  ∀ xs, p.Trace xs → Obeys rank xs held ∧ holding xs held = held'

/-- The program takes locks of rank at most `b` and gives all of them back. -/
def Keeps (b : ℕ) (p : Prog L) : Prop :=
  ∀ held, Above rank b held → p.Triple rank held held

/-- The program starts with the lock `l` on top of what it was called with,
and gives back `l` too. -/
def Closes (l : L) (b : ℕ) (p : Prog L) : Prop :=
  ∀ held, Above rank b held → p.Triple rank (l :: held) held

variable {rank}

theorem Triple.skip {held : List L} : Prog.skip.Triple rank held held := by
  intro xs h
  cases h
  exact ⟨trivial, rfl⟩

theorem Triple.act {a : Act L} {held : List L} (h : a.Ok rank held) :
    (Prog.act a).Triple rank held (a.hold held) := by
  intro xs htrace
  cases htrace
  exact ⟨⟨h, trivial⟩, rfl⟩

theorem Triple.seq {p q : Prog L} {h₁ h₂ h₃ : List L} (hp : p.Triple rank h₁ h₂)
    (hq : q.Triple rank h₂ h₃) : (Prog.seq p q).Triple rank h₁ h₃ := by
  intro xs htrace
  cases htrace with
  | seq hxs hys =>
    obtain ⟨hobeys, rfl⟩ := hp _ hxs
    obtain ⟨hobeys', rfl⟩ := hq _ hys
    exact ⟨obeys_append.mpr ⟨hobeys, hobeys'⟩, holding_append ..⟩

theorem Triple.alt {p q : Prog L} {h₁ h₂ : List L} (hp : p.Triple rank h₁ h₂)
    (hq : q.Triple rank h₁ h₂) : (Prog.alt p q).Triple rank h₁ h₂ := by
  intro xs htrace
  cases htrace with
  | left hxs => exact hp _ hxs
  | right hxs => exact hq _ hxs

/-- What one round gives back, any number of rounds gives back. -/
theorem Triple.loop {p : Prog L} {held : List L} (hp : p.Triple rank held held) :
    (Prog.loop p).Triple rank held held := by
  intro xs htrace
  generalize hl : Prog.loop p = q at htrace
  -- the rounds of the loop are the induction
  induction htrace with
  | done => exact ⟨trivial, rfl⟩
  | again hxs _ _ ih =>
    cases hl
    obtain ⟨hobeys, hheld⟩ := hp _ hxs
    obtain ⟨hobeys', hheld'⟩ := ih rfl
    rw [obeys_append, holding_append, hheld]
    exact ⟨⟨hobeys, hobeys'⟩, hheld'⟩
  | skip => cases hl
  | act => cases hl
  | seq => cases hl
  | left => cases hl
  | right => cases hl

variable {b c : ℕ} {l : L} {p q : Prog L}

theorem Keeps.skip : Prog.skip.Keeps rank b := fun _ _ => .skip

theorem Keeps.clear (hb : rank l ≤ b) : (Prog.act (.clear l)).Keeps rank b := by
  intro held habove
  have hok : (Act.clear l).Ok rank held := (habove.mono hb).notMem
  exact .act hok

/-- A bound no rank exceeds leaves nothing to hold at a switch. -/
theorem Keeps.switch (hb : ∀ l, rank l ≤ b) : (Prog.act .switch).Keeps rank b := by
  intro held habove
  apply Triple.act
  apply List.eq_nil_iff_forall_not_mem.mpr
  intro l hl
  exact absurd (habove l hl) (not_lt.mpr (hb l))

theorem Keeps.mono (h : p.Keeps rank c) (hcb : c ≤ b) : p.Keeps rank b :=
  fun held habove => h held (habove.mono hcb)

theorem Keeps.seq (hp : p.Keeps rank b) (hq : q.Keeps rank b) :
    (Prog.seq p q).Keeps rank b :=
  fun held habove => (hp held habove).seq (hq held habove)

theorem Keeps.alt (hp : p.Keeps rank b) (hq : q.Keeps rank b) :
    (Prog.alt p q).Keeps rank b :=
  fun held habove => (hp held habove).alt (hq held habove)

theorem Keeps.loop (hp : p.Keeps rank b) : (Prog.loop p).Keeps rank b :=
  fun held habove => (hp held habove).loop

/-- A locked section. -/
theorem Keeps.lock (hp : p.Closes rank l b) (hb : rank l ≤ b) :
    (Prog.lock l p).Keeps rank b := by
  intro held habove
  have hok : (Act.lock l).Ok rank held := habove.mono hb
  exact (Triple.act hok).seq (hp held habove)

/-- The end of a locked section, and what follows it. -/
theorem Closes.unlock (hp : p.Keeps rank b) : (Prog.unlock l p).Closes rank l b := by
  intro held habove
  have hok : (Act.unlock l).Ok rank (l :: held) := List.mem_cons_self
  have hheld : (Act.unlock l).hold (l :: held) = held := List.erase_cons_head ..
  exact (hheld ▸ Triple.act hok).seq (hp held habove)

/-- A call made inside a locked section uses lower locks. -/
theorem Closes.seq (hp : p.Keeps rank c) (hc : c < rank l) (hcb : c ≤ b)
    (hq : q.Closes rank l b) : (Prog.seq p q).Closes rank l b :=
  fun held habove => (hp _ ((habove.mono hcb).cons hc)).seq (hq held habove)

theorem Closes.alt (hp : p.Closes rank l b) (hq : q.Closes rank l b) :
    (Prog.alt p q).Closes rank l b :=
  fun held habove => (hp held habove).alt (hq held habove)

end Prog

/-! ## Threads -/

/-- The steps a thread has still to take in its current operation, and the
locks it has acquired and not released. -/
structure Frame (L : Type*) where
  todo : List (Act L)
  held : List L

/-- The lock words, and the threads. -/
structure State (T L : Type*) where
  word : L → Bool
  frame : T → Frame L

/-- A lock is only taken while its word is clear. -/
def Act.Enabled (word : L → Bool) : Act L → Prop
  | .lock l => word l = false
  | _ => True

section Threads

variable [DecidableEq L]

/-- The lock words after the step. -/
def Act.onWord : Act L → (L → Bool) → L → Bool
  | .lock l, word => update word l true
  | .unlock l, word => update word l false
  | .clear l, word => update word l false
  | .switch, word => word

variable [DecidableEq T] (progs : Set (Prog L))

def Init : StatePred (State T L) := fun s =>
  (∀ l, s.word l = false) ∧ ∀ t, s.frame t = ⟨[], []⟩

/-- A thread between operations starts one on some path of it; a thread in an
operation takes its next step. -/
inductive Next : Action (State T L) where
  | start {s : State T L} (t : T) {p : Prog L} {xs : List (Act L)} :
      p ∈ progs → p.Trace xs → (s.frame t).todo = [] →
      Next s { s with frame := update s.frame t ⟨xs, (s.frame t).held⟩ }
  | act {s : State T L} (t : T) {a : Act L} {xs : List (Act L)} :
      (s.frame t).todo = a :: xs → a.Enabled s.word →
      Next s ⟨a.onWord s.word, update s.frame t ⟨xs, a.hold (s.frame t).held⟩⟩

/-- Thread `t` spins on a lock that thread `u` holds. -/
def Waits (s : State T L) (t u : T) : Prop :=
  ∃ l xs, (s.frame t).todo = .lock l :: xs ∧ s.word l = true ∧ l ∈ (s.frame u).held

variable (rank : L → ℕ)

/-- What is left of the operation keeps the discipline and gives everything
back. -/
def Frame.Orderly (f : Frame L) : Prop :=
  Obeys rank f.todo f.held ∧ holding f.todo f.held = []

variable {rank} {progs}

theorem Frame.Orderly.above {f : Frame L} {l : L} {xs : List (Act L)} (h : f.Orderly rank)
    (htodo : f.todo = .lock l :: xs) : Above rank (rank l) f.held := by
  have hobeys := h.1
  rw [htodo] at hobeys
  exact hobeys.1

theorem Frame.Orderly.idle {f : Frame L} (h : f.Orderly rank) (htodo : f.todo = []) :
    f.held = [] := by
  have hheld := h.2
  rwa [htodo] at hheld

theorem Frame.Orderly.switch {f : Frame L} {xs : List (Act L)} (h : f.Orderly rank)
    (htodo : f.todo = .switch :: xs) : f.held = [] := by
  have hobeys := h.1
  rw [htodo] at hobeys
  exact hobeys.1

theorem Frame.Orderly.act {f : Frame L} {a : Act L} {xs : List (Act L)} (h : f.Orderly rank)
    (htodo : f.todo = a :: xs) : Frame.Orderly rank ⟨xs, a.hold f.held⟩ := by
  obtain ⟨hobeys, hheld⟩ := h
  rw [htodo] at hobeys hheld
  exact ⟨hobeys.2, hheld⟩

theorem Frame.Orderly.start {p : Prog L} {b : ℕ} {xs : List (Act L)} (hp : p.Keeps rank b)
    (htrace : p.Trace xs) : Frame.Orderly rank ⟨xs, []⟩ :=
  hp [] (above_nil b) xs htrace

/-- Threads that run orderly programs are orderly in every reachable
state. -/
theorem orderly {b : ℕ} (hprogs : ∀ p ∈ progs, p.Keeps rank b) {s : State T L}
    (h : Reachable Init (Next progs) s) : ∀ t, (s.frame t).Orderly rank := by
  apply h.invariant
  · intro s hinit t
    rw [hinit.2 t]
    exact ⟨trivial, rfl⟩
  · intro s s' hnext hinv u
    cases hnext with
    | start t hmem htrace htodo =>
      by_cases hu : u = t
      · subst hu
        simp only [update_self, (hinv u).idle htodo]
        exact .start (hprogs _ hmem) htrace
      · simpa [hu] using hinv u
    | act t htodo _ =>
      by_cases hu : u = t
      · subst hu
        simpa using (hinv u).act htodo
      · simpa [hu] using hinv u

omit [DecidableEq T] in
/-- Along a chain of waiting threads the ranks only fall. -/
theorem exists_rank_le {s : State T L} (hinv : ∀ t, (s.frame t).Orderly rank) {t u : T}
    (h : TransGen (Waits s) t u) :
    ∃ l xs k, (s.frame t).todo = .lock l :: xs ∧ k ∈ (s.frame u).held ∧ rank k ≤ rank l := by
  induction h with
  | single hw =>
    obtain ⟨l, xs, htodo, _, hmem⟩ := hw
    exact ⟨l, xs, l, htodo, hmem, le_rfl⟩
  | tail _ hw ih =>
    obtain ⟨l, xs, k, htodo, hk, hle⟩ := ih
    obtain ⟨m, _, htodo', _, hm⟩ := hw
    -- the thread in the middle holds `k` and requests `m` below it
    have hlt := (hinv _).above htodo' k hk
    exact ⟨l, xs, m, htodo, hm, hlt.le.trans hle⟩

omit [DecidableEq T] in
theorem not_waits_cycle {s : State T L} (hinv : ∀ t, (s.frame t).Orderly rank) (t : T) :
    ¬ TransGen (Waits s) t t := by
  intro h
  obtain ⟨l, xs, k, htodo, hk, hle⟩ := exists_rank_le hinv h
  exact absurd ((hinv t).above htodo k hk) (not_lt.mpr hle)

end Threads

end SpinLock
